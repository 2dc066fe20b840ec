import Kos.ProcessManagerProofs

/-! # The two calls of a caller of PM

    `ipc_msg_send_rcv(SEND_RECEIVE, TASK_PM, ..)` is a SEND and then a RECEIVE,
    and anything can happen between the two.  Here PM is a machine that takes
    one step at a time (`pmStep`: `task_pm` with its four handlers, cut at the
    IPC calls), and every other process makes calls between its steps.

    * at the moment `do_fork` copies a caller or `do_exec` overwrites it, the
      caller is RECEIVING from PM exactly when it has made its second call
      (`blocked_iff`);
    * in the runs where it always has, no child is RUNNABLE before its birth
      message (`rewrites_blocked`). -/

namespace KosForkExec

open FlatMemory KosKernel KosIpc GuardedRun
open KosProcessManager (findFree findFree_eq_some childBase childProc
  setWaiting setHanging setFree setParent View view view_of_rest)

/-! ## The state -/

/-- A request to PM. -/
inductive Call where
  | fork
  | exec
  | exit (status : Int)
  | wait
  deriving DecidableEq, Repr

/-- Where a process is in `SEND_RECEIVE` to PM: outside, past its SEND, or past
    its RECEIVE. -/
inductive UserPc where
  | running
  | sent (call : Call)
  | asked (call : Call)
  deriving DecidableEq, Repr

/-- What PM asks of FS: `FORK` and `EXIT` messages, and the four calls of
    `do_exec`. -/
inductive Job where
  | fork (childPid : Int)
  | stat
  | open
  | read
  | close
  | exit (status : Int)
  deriving DecidableEq, Repr

/-- Where PM goes on after `proc_cleanup`. -/
inductive After where
  | wait
  | exit (currentPid : Int) (i : Nat)
  deriving DecidableEq, Repr

/-- The next thing PM does. -/
inductive Pc where
  /-- `RECEIVE` from `ANY` -/
  | receive
  /-- the `switch` on the message -/
  | dispatch
  /-- `SEND_RECEIVE` to FS, its SEND -/
  | tell (src : Int) (job : Job)
  /-- the RECEIVE -/
  | hear (src : Int) (job : Job)
  /-- the birth message -/
  | birth (src childPid : Int)
  /-- `phys_copy` into the caller, and its registers -/
  | overwrite (src : Int)
  /-- `do_exit` behind `free_mem` -/
  | report (currentPid status : Int)
  /-- `proc_cleanup`, its SEND -/
  | cleanup (pid : Int) (k : After)
  | cleaned (pid : Int) (k : After)
  /-- the loop of `do_exit` at entry `i` -/
  | adopt (currentPid : Int) (i : Nat)
  /-- the SEND of an answer -/
  | reply (src : Int)
  deriving DecidableEq, Repr

/-- The table of the kernel, PM and the processes that ask it. -/
structure Sys where
  table : Table
  pc : Pc
  pmMsg : Option (Int × Call)
  user : Int → UserPc

/-- A process goes on to another place. -/
def Sys.setUser (s : Sys) (q : Int) (u : UserPc) : Sys :=
  { s with user := fun x => if x = q then u else s.user x }

/-- An entry of `proc_table` changes. -/
def Sys.upd (s : Sys) (q : Int) (f : Proc → Proc) : Sys :=
  { s with table := s.table.upd q f }

/-- A message has been copied: a process that hears from PM is done with its
    call, and PM has the request of a process that has sent one. -/
def Sys.settle (s : Sys) : List Write → Sys
  | [.copyMsg receiver sender _ _] =>
      if sender = TASK_PM then s.setUser receiver .running
      else if receiver = TASK_PM then
        match s.user sender with
        | .sent call => { s with pmMsg := some (sender, call) }
        | _ => s
      else s
  | _ => s

/-- What a step depends on besides the state: the loop bound, the address of a
    message, the size of the memory and the answer of FS. -/
structure Choice where
  fuel : Nat
  m : Addr
  memorySize : Int
  ok : Bool

/-- A SEND, and who has got a message by it. -/
def Sys.send (x : Choice) (s : Sys) (p r : Int) : Except Halt Sys := do
  let res ← kernelMsgSend x.fuel s.table p r x.m
  pure ({ s with table := res.1 }.settle res.2)

/-- A RECEIVE, and who has got a message by it. -/
def Sys.rcv (x : Choice) (s : Sys) (p src : Int) : Except Halt Sys := do
  let res ← kernelMsgRcv x.fuel s.table p src x.m
  pure ({ s with table := res.1 }.settle res.2)

/-! ## PM -/

/-- The end of an exchange with FS.  `do_exec` answers at once when `stat` or
    `open` fails. -/
def afterFs (ok : Bool) (src : Int) : Job → Pc
  | .fork childPid => .birth src childPid
  | .stat => if ok then .tell src .open else .reply src
  | .open => if ok then .tell src .read else .reply src
  | .read => .tell src .close
  | .close => .overwrite src
  | .exit status => .report src status

/-- `n` rounds of the loop in `do_wait`, from entry `i`, and what follows. -/
def scanChildren (s : Sys) (pid : Int) : Nat → Int → Nat → Sys
  | 0, _, hasChildren =>
      if hasChildren ≠ 0 then { s.upd pid (setWaiting true) with pc := .receive }
      else { s with pc := .reply pid }
  | n + 1, i, hasChildren =>
      if (s.table i).pParent = pid then
        if (s.table i).procState.hanging = true then
          { s with pc := .cleanup i .wait }
        else scanChildren s pid n (i + 1) (hasChildren + 1)
      else scanChildren s pid n (i + 1) hasChildren

/-- The copy that `do_fork` makes; the registers are part of it. -/
def forkSlot (s : Sys) (parentPid childPid base : Int) : Sys :=
  { (s.upd childPid fun _ => childProc parentPid base (s.table parentPid)).setUser
      childPid (s.user parentPid) with
    pc := .tell parentPid (.fork childPid) }

/-- `do_exit` behind `free_mem`, up to its loop. -/
def reportExit (s : Sys) (currentPid status : Int) : Sys :=
  let parentPid := (s.table currentPid).pParent
  let s := s.upd currentPid fun p => { p with exitStatus := status }
  if (s.table parentPid).procState.waiting = true then
    { s.upd parentPid (setWaiting false) with
      pc := .cleanup currentPid (.exit currentPid 0) }
  else { s.upd currentPid setHanging with pc := .adopt currentPid 0 }

/-- One round of the loop in `do_exit`. -/
def adoptOne (s : Sys) (currentPid : Int) (i : Nat) : Sys :=
  if (i : Int) < NR_TASKS_NATIVE + NR_PROCS_MAX then
    if (s.table i).pParent = currentPid then
      let s := s.upd i (setParent INIT)
      if (s.table INIT).procState.waiting = true ∧
          (s.table i).procState.hanging = true then
        { s.upd INIT (setWaiting false) with
          pc := .cleanup i (.exit currentPid (i + 1)) }
      else { s with pc := .adopt currentPid (i + 1) }
    else { s with pc := .adopt currentPid (i + 1) }
  else { s with pc := .receive }

/-- Where PM goes on behind a reply. -/
def Pc.next : After → Pc
  | .wait => .receive
  | .exit currentPid i => .adopt currentPid i

/-- The `switch` of `task_pm`; an unknown message fails its assert. -/
def dispatch (x : Choice) (s : Sys) : Except Halt Sys :=
  match s.pmMsg with
  | none => .error .assertionFailure
  | some (src, .fork) =>
      match findFree s.table 37 0 with
      | none => pure { s with pc := .reply src }
      | some childPid => do
          let base ← childBase x.memorySize (s.table src) childPid
          pure (forkSlot s src childPid base)
  | some (src, .exec) => pure { s with pc := .tell src .stat }
  | some (src, .exit status) => pure { s with pc := .tell src (.exit status) }
  | some (src, .wait) => pure (scanChildren s src 37 0 0)

/-- One step of `task_pm`.  A slot that is freed holds no process any more. -/
def pmStep (x : Choice) (s : Sys) : Except Halt Sys :=
  match s.pc with
  | .receive =>
      { s with pc := .dispatch, pmMsg := none }.rcv x TASK_PM ANY
  | .dispatch => dispatch x s
  | .tell src job => { s with pc := .hear src job }.send x TASK_PM TASK_FS
  | .hear src job =>
      { s with pc := afterFs x.ok src job }.rcv x TASK_PM TASK_FS
  | .birth src childPid =>
      { s with pc := .reply src }.send x TASK_PM childPid
  | .overwrite src =>
      -- one of several `phys_copy`, or the last of them
      pure { s with pc := if x.ok then .overwrite src else .reply src }
  | .report currentPid status => pure (reportExit s currentPid status)
  | .cleanup pid k =>
      { s with pc := .cleaned pid k }.send x TASK_PM (s.table pid).pParent
  | .cleaned pid k =>
      pure { (s.upd pid setFree).setUser pid .running with pc := .next k }
  | .adopt currentPid i => pure (adoptOne s currentPid i)
  | .reply src => { s with pc := .receive }.send x TASK_PM src

/-! ## Runs -/

/-- What may happen next. -/
inductive Event where
  | call (pid : Int)
  | ask (pid : Int) (call : Call)
  | listen (pid : Int)
  | hwInt (taskNr : Int)
  | outside
  | pm

/-- A step of one process.  Requests come from user processes, and only forked
    ones exit; other messages to PM, and all other calls, are arbitrary. -/
inductive Step : Sys → Event → Sys → Prop where
  | send {x : Choice} {s s' : Sys} {q r : Int} (hq : InTable q)
      (hr : InTable r) (hpm : q ≠ TASK_PM) (huser : s.user q = .running)
      (hrun : (s.table q).procState = RUNNABLE) (hcall : s.send x q r = .ok s') :
      Step s (.call q) s'
  | rcv {x : Choice} {s s' : Sys} {q src : Int} (hq : InTable q)
      (hsrc : IsSource src) (hpm : q ≠ TASK_PM) (huser : s.user q = .running)
      (hrun : (s.table q).procState = RUNNABLE) (hcall : s.rcv x q src = .ok s') :
      Step s (.call q) s'
  | ask {x : Choice} {s s' : Sys} {q : Int} {call : Call} (hq : InTable q)
      (htask : NR_TASKS_NATIVE ≤ q)
      (hforked : ∀ status, call = .exit status →
        NR_TASKS_NATIVE + NR_PROCS_NATIVE ≤ q)
      (huser : s.user q = .running) (hrun : (s.table q).procState = RUNNABLE)
      (hcall : (s.setUser q (.sent call)).send x q TASK_PM = .ok s') :
      Step s (.ask q call) s'
  | listen {x : Choice} {s s' : Sys} {q : Int} {call : Call}
      (huser : s.user q = .sent call) (hrun : (s.table q).procState = RUNNABLE)
      (hcall : (s.setUser q (.asked call)).rcv x q TASK_PM = .ok s') :
      Step s (.listen q) s'
  | hwInt {s : Sys} {p : Int} {T' : Table} {w : List Write} (hp : InTable p)
      (hpm : p ≠ TASK_PM) (hcall : hwIntNotification s.table p = .ok (T', w)) :
      Step s (.hwInt p) { s with table := T' }
  | outside {s : Sys} {T' : Table} (hin : ∀ p, InTable p → T' p = s.table p) :
      Step s .outside { s with table := T' }
  | pm {x : Choice} {s s' : Sys}
      (hrun : (s.table TASK_PM).procState = RUNNABLE)
      (hcall : pmStep x s = .ok s') : Step s .pm s'

/-- `init_process` has run, and PM waits for its first message. -/
structure Boot (s : Sys) : Prop where
  table : Booted s.table
  pc : s.pc = .receive
  user : ∀ q, s.user q = .running

/-! ## What the calls promise -/

/-- The process is blocked waiting for PM. -/
def BlockedOnPm (T : Table) (q : Int) : Prop :=
  (T q).procState.receiving = true ∧ (T q).pidRecvingfrom = TASK_PM

/-- PM's next step copies the process, or writes into it. -/
def Rewrites (s : Sys) (p : Int) : Prop :=
  (s.table TASK_PM).procState = RUNNABLE ∧
    ((s.pc = .dispatch ∧ s.pmMsg = some (p, .fork) ∧
        findFree s.table 37 0 ≠ none) ∨
      s.pc = .overwrite p)

/-- A child whose birth message PM has not sent. -/
def Pc.newborn : Pc → Option Int
  | .tell _ (.fork c) => some c
  | .hear _ (.fork c) => some c
  | .birth _ c => some c
  | _ => none

/-- The process has made its second call. -/
def SecondCallMade (s : Sys) (p : Int) : Prop := ∀ call, s.user p ≠ .sent call

/-- The condition on a run: PM copies and overwrites after the second call. -/
def SecondCallFirst (s : Sys) (e : Event) : Prop :=
  e = .pm → ∀ p, Rewrites s p → SecondCallMade s p

/-! ## One kernel call -/

/-- The fields that say whether a process waits for a message, and whose. -/
def SameWait (x y : Proc) : Prop :=
  x.procState.receiving = y.procState.receiving ∧
    x.pidRecvingfrom = y.pidRecvingfrom

/-- A change of an entry that leaves what a process waits for. -/
theorem sameWait_upd {T : Table} {p : Int} {f : Proc → Proc}
    (hf : ∀ x, SameWait (f x) x) (q : Int) : SameWait (T.upd p f q) (T q) := by
  by_cases h : q = p
  · subst h; rw [upd_self]; exact hf _
  · rw [upd_of_ne T f h]; exact ⟨rfl, rfl⟩

/-- A link leaves it. -/
theorem sameWait_setLink (T : Table) (p q : Int) (l : Option Int) :
    SameWait (setLink T p l q) (T q) := by
  rw [setLink_frame]
  exact ⟨rfl, rfl⟩

theorem sameWait_trans {x y z : Proc} (h : SameWait x y) (h' : SameWait y z) :
    SameWait x z :=
  ⟨h.1.trans h'.1, h.2.trans h'.2⟩

/-- Whether a process waits for PM depends on it. -/
theorem blockedOnPm_congr {T T' : Table} {q : Int}
    (h : SameWait (T' q) (T q)) : BlockedOnPm T' q ↔ BlockedOnPm T q := by
  rw [BlockedOnPm, BlockedOnPm, h.1, h.2]

/-- PM waits to send to FS, or to nobody. -/
def SendsToFs (T : Table) : Prop :=
  (T TASK_PM).procState.sending = true → (T TASK_PM).pidSendingto = TASK_FS

section Calls

variable {fuel : Nat} {T T' : Table} {p r src : Int} {m : Addr} {w : List Write}

/-- A SEND wakes its receiver or leaves all waits as they are. -/
theorem wait_send (h : kernelMsgSend fuel T p r m = .ok (T', w)) (q : Int) :
    SameWait (T' q) (T q) ∨
      (q = r ∧ IsWaitingFor T r p ∧ ∃ dst src, w = [.copyMsg r p dst src]) := by
  obtain ⟨-, -, hdir | hblk⟩ := kernelMsgSend_cases h
  · by_cases hq : q = r
    · obtain ⟨dst, src, -, -, hw⟩ := hdir.writes
      exact Or.inr ⟨hq, hdir.waiting, dst, src, hw⟩
    · rw [hdir.table, upd_of_ne T delivered hq]
      exact Or.inl ⟨rfl, rfl⟩
  · obtain ⟨t, l, -, hT⟩ := hblk.table
    rw [hT]
    refine Or.inl (sameWait_trans (sameWait_setLink _ _ _ _)
      (sameWait_trans (sameWait_setLink _ _ _ _) (sameWait_upd ?_ q)))
    intro x
    exact ⟨rfl, rfl⟩

/-- What a SEND writes is its own message. -/
theorem writes_send (h : kernelMsgSend fuel T p r m = .ok (T', w)) :
    w = [] ∨ ((T r).procState = RECEIVING ∧
      ∃ dst src, w = [.copyMsg r p dst src]) := by
  obtain ⟨-, -, hdir | hblk⟩ := kernelMsgSend_cases h
  · obtain ⟨dst, src, -, -, hw⟩ := hdir.writes
    exact Or.inr ⟨hdir.receiver, dst, src, hw⟩
  · exact Or.inl hblk.writes

/-- A RECEIVE changes no wait but the caller's own. -/
theorem wait_rcv (h : kernelMsgRcv fuel T r src m = .ok (T', w)) {q : Int}
    (hq : q ≠ r) : SameWait (T' q) (T q) := by
  obtain ⟨-, hint | ⟨-, ⟨s, x, hf⟩ | hblk⟩⟩ := kernelMsgRcv_cases h
  · rw [hint.table, upd_of_ne T _ hq]
    exact ⟨rfl, rfl⟩
  · rw [hf.table]
    refine sameWait_trans (sameWait_upd ?_ q)
      (sameWait_trans (sameWait_setLink _ _ _ _) (sameWait_setLink _ _ _ _))
    intro y
    exact ⟨rfl, rfl⟩
  · rw [hblk.table, upd_of_ne T _ hq]
    exact ⟨rfl, rfl⟩

/-- What a RECEIVE writes comes from the process it names, which was SENDING. -/
theorem writes_rcv (h : kernelMsgRcv fuel T r src m = .ok (T', w)) {q s : Int}
    {dst a : Addr} (hw : w = [.copyMsg q s dst a]) :
    q = r ∧ (T s).procState = SENDING ∧ (T s).pidSendingto = r := by
  obtain ⟨-, hint | ⟨-, ⟨s', x, hf⟩ | hblk⟩⟩ := kernelMsgRcv_cases h
  · obtain ⟨d, -, hw'⟩ := hint.writes
    rw [hw'] at hw
    cases hw
  · obtain ⟨d, a', -, -, hw'⟩ := hf.writes
    rw [hw'] at hw
    simp only [List.cons.injEq, Write.copyMsg.injEq, and_true] at hw
    obtain ⟨rfl, rfl, -⟩ := hw
    exact ⟨rfl, hf.sender, hf.target⟩
  · rw [hblk.writes] at hw
    cases hw

/-- A RECEIVE from PM hears from it or blocks. -/
theorem rcv_pm (h : kernelMsgRcv fuel T r TASK_PM m = .ok (T', w)) :
    (∃ dst a, w = [.copyMsg r TASK_PM dst a]) ∨ BlockedOnPm T' r := by
  obtain ⟨-, hint | ⟨-, ⟨s', x, hf⟩ | hblk⟩⟩ := kernelMsgRcv_cases h
  · rcases hint.source with hsrc | hsrc <;> exact absurd hsrc (by decide)
  · obtain ⟨d, a', -, -, hw'⟩ := hf.writes
    rcases hf.choice with ⟨hany, -⟩ | ⟨-, rfl, -⟩
    · exact absurd hany (by decide)
    · exact Or.inl ⟨d, a', hw'⟩
  · rw [BlockedOnPm, hblk.table, upd_self]
    exact Or.inr ⟨rfl, rfl⟩

/-- PM's own SEND leaves it waiting for the receiver at most. -/
theorem sendsToFs_send (h : kernelMsgSend fuel T p r m = .ok (T', w))
    (hT : SendsToFs T) (hp : p = TASK_PM → r = TASK_FS) : SendsToFs T' := by
  obtain ⟨hne, -, hdir | hblk⟩ := kernelMsgSend_cases h
  · rw [SendsToFs, hdir.table]
    by_cases hr : TASK_PM = r
    · rw [hr, upd_self, ← hr]
      exact hT
    · rw [upd_of_ne T _ hr]
      exact hT
  · obtain ⟨t, l, -, hT'⟩ := hblk.table
    rw [SendsToFs, hT']
    simp only [setLink_procState, setLink_pidSendingto]
    by_cases hpm : TASK_PM = p
    · rw [hpm, upd_self]
      intro _
      exact hp hpm.symm
    · rw [upd_of_ne T _ hpm]
      exact hT

/-- A RECEIVE starts no SEND. -/
theorem sendsToFs_rcv (h : kernelMsgRcv fuel T r src m = .ok (T', w))
    (hT : SendsToFs T) : SendsToFs T' := by
  have hsame : ∀ (U : Table) (y : Int) (f : Proc → Proc), SendsToFs U →
      (∀ z, (f z).procState.sending = true → z.procState.sending = true ∧
        (f z).pidSendingto = z.pidSendingto) → SendsToFs (U.upd y f) := by
    intro U y f hU hf
    by_cases hy : TASK_PM = y
    · rw [SendsToFs, hy, upd_self]
      intro hs
      obtain ⟨hz, hto⟩ := hf _ hs
      rw [hto, ← hy]
      rw [← hy] at hz
      exact hU hz
    · rw [SendsToFs, upd_of_ne U f hy]
      exact hU
  have hlink : ∀ (U : Table) (y : Int) (l : Option Int), SendsToFs U →
      SendsToFs (setLink U y l) := by
    intro U y l hU
    rw [SendsToFs, setLink_procState, setLink_pidSendingto]
    exact hU
  obtain ⟨-, hint | ⟨-, ⟨s, x, hf⟩ | hblk⟩⟩ := kernelMsgRcv_cases h
  · rw [hint.table]
    exact hsame _ _ _ hT fun z hz => ⟨hz, rfl⟩
  · rw [hf.table]
    refine hsame _ _ _ (hlink _ _ _ (hlink _ _ _ hT)) fun z hz => ?_
    cases hz
  · rw [hblk.table]
    exact hsame _ _ _ hT fun z hz => ⟨hz, rfl⟩

end Calls

/-! ## What a copied message does -/

/-- The table behind a call is that of the call. -/
@[simp] theorem table_settle (s : Sys) (w : List Write) :
    (s.settle w).table = s.table := by
  unfold Sys.settle
  split
  · split
    · rfl
    · split
      · split <;> rfl
      · rfl
  · rfl

/-- PM is where it was. -/
@[simp] theorem pc_settle (s : Sys) (w : List Write) :
    (s.settle w).pc = s.pc := by
  unfold Sys.settle
  split
  · split
    · rfl
    · split
      · split <;> rfl
      · rfl
  · rfl

/-- Only a message of PM changes where a process is. -/
theorem user_settle (s : Sys) (w : List Write) (q : Int) :
    (s.settle w).user q = s.user q ∨
      ((s.settle w).user q = .running ∧
        ∃ dst src, w = [.copyMsg q TASK_PM dst src]) := by
  unfold Sys.settle
  split
  · rename_i receiver sender dst src
    split
    · rename_i hpm
      by_cases hq : q = receiver
      · subst hq hpm
        exact Or.inr ⟨if_pos rfl, dst, src, rfl⟩
      · exact Or.inl (if_neg hq)
    · split
      · split <;> exact Or.inl rfl
      · exact Or.inl rfl
  · exact Or.inl rfl

/-- PM has a new request from a process that has sent one. -/
theorem pmMsg_settle (s : Sys) (w : List Write) :
    (s.settle w).pmMsg = s.pmMsg ∨ ∃ q call, q ≠ TASK_PM ∧
      (s.settle w).pmMsg = some (q, call) ∧ s.user q = .sent call ∧
      (s.settle w).user = s.user := by
  unfold Sys.settle
  split
  · rename_i receiver sender dst src
    split
    · exact Or.inl rfl
    · rename_i hpm
      split
      · split
        · rename_i call hcall
          exact Or.inr ⟨sender, call, hpm, rfl, hcall, rfl⟩
        · exact Or.inl rfl
      · exact Or.inl rfl
  · exact Or.inl rfl

/-! ## The invariant -/

/-- The process PM works for, from the dispatch of its request to the answer,
    unless it exits. -/
def Pc.client : Pc → Option Int
  | .tell _ (.exit _) | .hear _ (.exit _) => none
  | .tell src _ | .hear src _ | .birth src _ | .overwrite src => some src
  | _ => none

/-- The process PM is about to free. -/
def Pc.leaver : Pc → Option Int
  | .tell p (.exit _) | .hear p (.exit _) | .report p _ | .cleanup p _
  | .cleaned p _ => some p
  | _ => none

/-- What the places of PM and of the processes say of the table. -/
structure Inv (s : Sys) : Prop where
  asked : ∀ q call, s.user q = .asked call → BlockedOnPm s.table q
  sent : ∀ q call, s.user q = .sent call →
    (s.table q).procState.receiving = false
  caller : ∀ q, s.user q ≠ .running → InTable q ∧ NR_TASKS_NATIVE ≤ q ∧
    (s.table q).procState.freeSlot = false
  native : ∀ q, InTable q → q < NR_TASKS_NATIVE + NR_PROCS_NATIVE →
    (s.table q).procState.freeSlot = false ∧
      (s.table q).procState.hanging = false
  exits : ∀ q status, s.user q = .sent (.exit status) ∨
      s.user q = .asked (.exit status) →
    NR_TASKS_NATIVE + NR_PROCS_NATIVE ≤ q
  leaver : ∀ q, s.pc.leaver = some q → NR_TASKS_NATIVE + NR_PROCS_NATIVE ≤ q
  client : ∀ p, s.pc.client = some p → s.user p ≠ .running
  message : s.pc = .dispatch → ∀ p call, s.pmMsg = some (p, call) →
    s.user p = .sent call ∨ s.user p = .asked call
  target : s.pc = .dispatch ∨ s.pc.client ≠ none → SendsToFs s.table

/-- What PM sees of an entry includes two flags. -/
theorem flags_of_view {p q : Proc} (h : view p = view q) :
    p.procState.freeSlot = q.procState.freeSlot ∧
      p.procState.hanging = q.procState.hanging :=
  ⟨congrArg View.freeSlot h, congrArg View.hanging h⟩

variable {x : Choice} {s s' : Sys} {p r src : Int}

theorem sendsToFs_of_runnable {T : Table}
    (hrun : (T TASK_PM).procState = RUNNABLE) : SendsToFs T := by
  intro hs
  rw [hrun] at hs
  cases hs

/-- FS is no caller. -/
theorem ne_fs (h : Inv s) {q : Int} (hq : s.user q ≠ .running) :
    q ≠ TASK_FS := by
  rintro rfl
  exact absurd (h.caller _ hq).2.1 (by decide)

/-- **SEND** keeps the invariant; PM itself sends to FS while it has a client. -/
theorem inv_send (h : Inv s)
    (hpm : p = TASK_PM → r = TASK_FS ∨
      (s.pc ≠ .dispatch ∧ s.pc.client = none))
    (hcall : s.send x p r = .ok s') : Inv s' := by
  simp only [Sys.send, bind_eq_ok, pure_eq_ok] at hcall
  obtain ⟨⟨T', w⟩, hcall, rfl⟩ := hcall
  have hflags := fun q => flags_of_view (view_of_rest (rest_send hcall q))
  have huser : ∀ q, (Sys.settle { s with table := T' } w).user q ≠ .running →
      (Sys.settle { s with table := T' } w).user q = s.user q := by
    intro q hq
    rcases user_settle { s with table := T' } w q with hu | ⟨hu, -⟩
    · exact hu
    · exact absurd hu hq
  -- a client or the source of the message does not hear from PM
  have hkeep : ∀ q, s.user q ≠ .running →
      (s.pc = .dispatch ∨ s.pc.client ≠ none) →
      (Sys.settle { s with table := T' } w).user q = s.user q := by
    intro q hq hpc
    rcases user_settle { s with table := T' } w q with hu | ⟨-, d, c, hw⟩
    · exact hu
    · rcases writes_send hcall with hw' | ⟨-, d', c', hw'⟩
      · rw [hw'] at hw
        cases hw
      · rw [hw'] at hw
        simp only [List.cons.injEq, Write.copyMsg.injEq, and_true] at hw
        obtain ⟨rfl, rfl, -⟩ := hw
        rcases hpm rfl with rfl | ⟨hnd, hnc⟩
        · exact absurd rfl (ne_fs h hq)
        · rcases hpc with hd | hc
          · exact absurd hd hnd
          · exact absurd hnc hc
  constructor
  case asked =>
    intro q call hq
    have hold := h.asked q call (by rw [← huser q (by rw [hq]; simp), hq])
    rw [table_settle]
    rcases wait_send hcall q with hsame | ⟨rfl, hwait, d, c, hw⟩
    · exact (blockedOnPm_congr hsame).mpr hold
    · -- PM has answered
      have hp' : p = TASK_PM := by
        rcases hwait.2 with hfrom | hfrom
        · rw [← hfrom, hold.2]
        · rw [hold.2] at hfrom
          exact absurd hfrom (by decide)
      subst hp'
      rw [hw] at hq
      simp [Sys.settle, Sys.setUser] at hq
  case sent =>
    intro q call hq
    have hold := h.sent q call (by rw [← huser q (by rw [hq]; simp), hq])
    rw [table_settle]
    rcases wait_send hcall q with hsame | ⟨rfl, hwait, -⟩
    · rw [hsame.1]
      exact hold
    · rw [hwait.1] at hold
      cases hold
  case caller =>
    intro q hq
    have hold := h.caller q (by rw [← huser q hq]; exact hq)
    rw [table_settle]
    exact ⟨hold.1, hold.2.1, (hflags q).1.trans hold.2.2⟩
  case native =>
    intro q hq hlt
    rw [table_settle]
    obtain ⟨hf, hh⟩ := h.native q hq hlt
    exact ⟨(hflags q).1.trans hf, (hflags q).2.trans hh⟩
  case exits =>
    intro q status hq
    have hne : (Sys.settle { s with table := T' } w).user q ≠ .running := by
      rcases hq with hq | hq <;> rw [hq] <;> simp
    rw [huser q hne] at hq
    exact h.exits q status hq
  case leaver =>
    rw [pc_settle]
    exact h.leaver
  case client =>
    rw [pc_settle]
    intro q hq
    have hold := h.client q hq
    rw [hkeep q hold (Or.inr (by simp only [hq]; simp))]
    exact hold
  case message =>
    rw [pc_settle]
    intro hpc q call hmsg
    rcases pmMsg_settle { s with table := T' } w with hm | ⟨q', call', -, hm, hu, hall⟩
    · rw [hm] at hmsg
      have hold := h.message hpc q call hmsg
      rw [hkeep q (by rcases hold with ho | ho <;> rw [ho] <;> simp)
        (Or.inl hpc)]
      exact hold
    · rw [hm] at hmsg
      obtain ⟨rfl, rfl⟩ := Prod.mk.inj (Option.some.inj hmsg)
      rw [hall]
      exact Or.inl hu
  case target =>
    rw [pc_settle, table_settle]
    intro hpc
    refine sendsToFs_send hcall (h.target hpc) fun hp' => ?_
    rcases hpm hp' with hfs | ⟨hnd, hnc⟩
    · exact hfs
    · rcases hpc with hd | hc
      · exact absurd hd hnd
      · exact absurd hnc hc

theorem setUser_self (s : Sys) (q : Int) : s.setUser q (s.user q) = s := by
  have huser : (fun y => if y = q then s.user q else s.user y) = s.user := by
    funext y
    by_cases hy : y = q
    · rw [if_pos hy, hy]
    · rw [if_neg hy]
  rw [Sys.setUser, huser]

/-- **RECEIVE** keeps the invariant, as a call of its own or as the second call
    of a request. -/
theorem inv_rcv (h : Inv s) {v : UserPc}
    (hv : (v = .running ∧ s.user p = .running) ∨
      ∃ call, v = .asked call ∧ s.user p = .sent call ∧ src = TASK_PM)
    (hcall : (s.setUser p v).rcv x p src = .ok s') : Inv s' := by
  simp only [Sys.rcv, bind_eq_ok, pure_eq_ok] at hcall
  obtain ⟨⟨T', w⟩, hcall, rfl⟩ := hcall
  change kernelMsgRcv x.fuel s.table p src x.m = .ok (T', w) at hcall
  let s₁ : Sys := { s.setUser p v with table := T' }
  show Inv (s₁.settle w)
  have hflags := fun q => flags_of_view (view_of_rest (rest_rcv hcall q))
  have hself : s₁.user p = v := if_pos rfl
  have hother : ∀ q, q ≠ p → s₁.user q = s.user q := fun q hq => if_neg hq
  have huser : ∀ q, (s₁.settle w).user q ≠ .running →
      (s₁.settle w).user q = s₁.user q := by
    intro q hq
    rcases user_settle s₁ w q with hu | ⟨hu, -⟩
    · exact hu
    · exact absurd hu hq
  have hcaller : ∀ q, s₁.user q ≠ .running → s.user q ≠ .running := by
    intro q hq
    by_cases hqp : q = p
    · subst hqp
      rw [hself] at hq
      rcases hv with ⟨rfl, -⟩ | ⟨call, -, hu, -⟩
      · exact absurd rfl hq
      · rw [hu]; simp
    · rw [← hother q hqp]
      exact hq
  -- while PM has a client it sends to FS at most
  have hkeep : ∀ q, s.user q ≠ .running →
      (s.pc = .dispatch ∨ s.pc.client ≠ none) →
      (s₁.settle w).user q = s₁.user q := by
    intro q hq hpc
    rcases user_settle s₁ w q with hu | ⟨-, d, c, hw⟩
    · exact hu
    · obtain ⟨rfl, hs, hto⟩ := writes_rcv hcall hw
      have hfs := h.target hpc (by rw [hs]; rfl)
      rw [hto] at hfs
      exact absurd hfs (ne_fs h hq)
  constructor
  case asked =>
    intro q call hq
    rw [table_settle]
    have hq₁ : s₁.user q = .asked call := by
      rw [← huser q (by rw [hq]; simp), hq]
    by_cases hqp : q = p
    · subst hqp
      rcases hv with ⟨rfl, -⟩ | ⟨call', rfl, -, rfl⟩
      · rw [hself] at hq₁
        cases hq₁
      · rcases rcv_pm hcall with ⟨d, a, hw⟩ | hblk
        · rw [hw] at hq
          simp [Sys.settle, Sys.setUser] at hq
        · exact hblk
    · rw [hother q hqp] at hq₁
      exact (blockedOnPm_congr (wait_rcv hcall hqp)).mpr (h.asked q call hq₁)
  case sent =>
    intro q call hq
    rw [table_settle]
    have hq₁ : s₁.user q = .sent call := by
      rw [← huser q (by rw [hq]; simp), hq]
    have hqp : q ≠ p := by
      rintro rfl
      rw [hself] at hq₁
      rcases hv with ⟨rfl, -⟩ | ⟨call', rfl, -⟩ <;> cases hq₁
    rw [hother q hqp] at hq₁
    exact (wait_rcv hcall hqp).1.trans (h.sent q call hq₁)
  case caller =>
    intro q hq
    rw [table_settle]
    have hold := h.caller q (hcaller q (by rw [← huser q hq]; exact hq))
    exact ⟨hold.1, hold.2.1, (hflags q).1.trans hold.2.2⟩
  case native =>
    intro q hq hlt
    rw [table_settle]
    obtain ⟨hf, hh⟩ := h.native q hq hlt
    exact ⟨(hflags q).1.trans hf, (hflags q).2.trans hh⟩
  case exits =>
    intro q status hq
    have hne : (s₁.settle w).user q ≠ .running := by
      rcases hq with hq | hq <;> rw [hq] <;> simp
    rw [huser q hne] at hq
    by_cases hqp : q = p
    · subst hqp
      rw [hself] at hq
      rcases hv with ⟨rfl, -⟩ | ⟨call, rfl, hu, -⟩
      · rcases hq with hq | hq <;> cases hq
      · rcases hq with hq | hq
        · cases hq
        · cases hq
          exact h.exits q status (Or.inl hu)
    · rw [hother q hqp] at hq
      exact h.exits q status hq
  case leaver =>
    rw [pc_settle]
    exact h.leaver
  case client =>
    rw [pc_settle]
    intro q hq
    have hold := h.client q hq
    rw [hkeep q hold (Or.inr (by rw [show s.pc.client = some q from hq]; simp))]
    by_cases hqp : q = p
    · subst hqp
      rw [hself]
      rcases hv with ⟨-, hu⟩ | ⟨call, rfl, -⟩
      · exact absurd hu hold
      · simp
    · rw [hother q hqp]
      exact hold
  case message =>
    rw [pc_settle]
    intro hpc q call hmsg
    rcases pmMsg_settle s₁ w with hm | ⟨q', call', -, hm, hu, hall⟩
    · rw [hm] at hmsg
      have hold := h.message hpc q call hmsg
      rw [hkeep q (by rcases hold with ho | ho <;> rw [ho] <;> simp)
        (Or.inl hpc)]
      by_cases hqp : q = p
      · subst hqp
        rw [hself]
        rcases hv with ⟨-, hu⟩ | ⟨call', rfl, hu, -⟩
        · rw [hu] at hold
          rcases hold with ho | ho <;> cases ho
        · rw [hu] at hold
          rcases hold with ho | ho
          · cases ho
            exact Or.inr rfl
          · cases ho
      · rw [hother q hqp]
        exact hold
    · rw [hm] at hmsg
      obtain ⟨rfl, rfl⟩ := Prod.mk.inj (Option.some.inj hmsg)
      rw [hall]
      exact Or.inl hu
  case target =>
    rw [pc_settle, table_settle]
    intro hpc
    exact sendsToFs_rcv hcall (h.target hpc)

/-- The first call of a request: the caller counts as one that has sent. -/
theorem inv_sent (h : Inv s) {call : Call} (hp : InTable p)
    (htask : NR_TASKS_NATIVE ≤ p)
    (hforked : ∀ status, call = .exit status →
      NR_TASKS_NATIVE + NR_PROCS_NATIVE ≤ p)
    (huser : s.user p = .running) (hrun : (s.table p).procState = RUNNABLE) :
    Inv (s.setUser p (.sent call)) := by
  have hself : (s.setUser p (.sent call)).user p = .sent call := if_pos rfl
  have hother : ∀ q, q ≠ p → (s.setUser p (.sent call)).user q = s.user q :=
    fun q hq => if_neg hq
  have hne : ∀ q, s.user q ≠ .running → q ≠ p := by
    rintro q hq rfl
    exact hq huser
  refine ⟨?_, ?_, ?_, h.native, ?_, h.leaver, ?_, ?_, h.target⟩
  · intro q call' hq
    by_cases hqp : q = p
    · rw [hqp, hself] at hq
      cases hq
    · rw [hother q hqp] at hq
      exact h.asked q call' hq
  · intro q call' hq
    by_cases hqp : q = p
    · show (s.table q).procState.receiving = false
      rw [hqp, hrun]
      rfl
    · rw [hother q hqp] at hq
      exact h.sent q call' hq
  · intro q hq
    by_cases hqp : q = p
    · subst hqp
      refine ⟨hp, htask, ?_⟩
      show (s.table q).procState.freeSlot = false
      rw [hrun]
      rfl
    · rw [hother q hqp] at hq
      exact h.caller q hq
  · intro q status hq
    by_cases hqp : q = p
    · rw [hqp, hself] at hq
      rcases hq with hq | hq
      · rw [hqp]
        exact hforked status (UserPc.sent.inj hq)
      · cases hq
    · rw [hother q hqp] at hq
      exact h.exits q status hq
  · intro q hq
    have hold := h.client q hq
    rw [hother q (hne q hold)]
    exact hold
  · intro hpc q call' hmsg
    have hold := h.message hpc q call' hmsg
    have hrunning : s.user q ≠ .running := by
      rcases hold with ho | ho <;> rw [ho] <;> simp
    rw [hother q (hne q hrunning)]
    exact hold

/-- An interrupt keeps the invariant. -/
theorem inv_hwInt (h : Inv s) {T' : Table} {w : List Write}
    (hpm : p ≠ TASK_PM) (hcall : hwIntNotification s.table p = .ok (T', w)) :
    Inv { s with table := T' } := by
  have hflags := fun q => flags_of_view (view_of_rest (rest_hwInt hcall q))
  have hT : ∀ q, SameWait (T' q) (s.table q) ∨
      (q = p ∧ IsWaitingForInt s.table p) := by
    intro q
    rcases hwIntNotification_cases hcall with
      ⟨hwait, -, hT', -⟩ | ⟨-, hT', -⟩
    · by_cases hqp : q = p
      · exact Or.inr ⟨hqp, hwait⟩
      · rw [hT', upd_of_ne _ _ hqp]
        exact Or.inl ⟨rfl, rfl⟩
    · rw [hT']
      refine Or.inl (sameWait_upd ?_ q)
      intro y
      exact ⟨rfl, rfl⟩
  refine ⟨?_, ?_, ?_, ?_, h.exits, h.leaver, h.client, h.message, ?_⟩
  · intro q call hq
    have hold := h.asked q call hq
    rcases hT q with hsame | ⟨rfl, hwait⟩
    · exact (blockedOnPm_congr hsame).mpr hold
    · have hfrom := hwait.2
      rw [hold.2] at hfrom
      rcases hfrom with hfrom | hfrom <;> exact absurd hfrom (by decide)
  · intro q call hq
    have hold := h.sent q call hq
    rcases hT q with hsame | ⟨rfl, hwait⟩
    · exact hsame.1.trans hold
    · rw [hwait.1] at hold
      cases hold
  · intro q hq
    have hold := h.caller q hq
    exact ⟨hold.1, hold.2.1, (hflags q).1.trans hold.2.2⟩
  · intro q hq hlt
    obtain ⟨hf, hh⟩ := h.native q hq hlt
    exact ⟨(hflags q).1.trans hf, (hflags q).2.trans hh⟩
  · intro hpc
    have hsame : T' TASK_PM = s.table TASK_PM := by
      rcases hwIntNotification_cases hcall with
        ⟨-, -, hT', -⟩ | ⟨-, hT', -⟩ <;>
      rw [hT', upd_of_ne _ _ hpm.symm]
    show SendsToFs T'
    rw [SendsToFs, hsame]
    exact h.target hpc

/-- The entries outside the table do not matter. -/
theorem inv_outside (h : Inv s) {T' : Table}
    (hin : ∀ q, InTable q → T' q = s.table q) :
    Inv { s with table := T' } := by
  have huser : ∀ q, s.user q ≠ .running → T' q = s.table q :=
    fun q hq => hin q (h.caller q hq).1
  refine ⟨?_, ?_, ?_, ?_, h.exits, h.leaver, h.client, h.message, ?_⟩
  · intro q call hq
    have hq' : s.user q = .asked call := hq
    show BlockedOnPm T' q
    rw [BlockedOnPm, huser q (by rw [hq']; simp)]
    exact h.asked q call hq
  · intro q call hq
    have hq' : s.user q = .sent call := hq
    show (T' q).procState.receiving = false
    rw [huser q (by rw [hq']; simp)]
    exact h.sent q call hq
  · intro q hq
    show InTable q ∧ NR_TASKS_NATIVE ≤ q ∧ (T' q).procState.freeSlot = false
    rw [huser q hq]
    exact h.caller q hq
  · intro q hq hlt
    show (T' q).procState.freeSlot = false ∧ (T' q).procState.hanging = false
    rw [hin q hq]
    exact h.native q hq hlt
  · intro hpc
    show SendsToFs T'
    rw [SendsToFs, hin TASK_PM (by decide)]
    exact h.target hpc

/-! ## PM's own steps -/

/-- PM goes on to `pc`. -/
theorem inv_goto (h : Inv s) (hrun : (s.table TASK_PM).procState = RUNNABLE)
    {pc : Pc} (hne : pc ≠ .dispatch)
    (hleaver : ∀ q, pc.leaver = some q →
      NR_TASKS_NATIVE + NR_PROCS_NATIVE ≤ q)
    (hclient : ∀ q, pc.client = some q → s.user q ≠ .running) :
    Inv { s with pc := pc } :=
  { h with
    leaver := hleaver
    client := hclient
    message := fun hpc => absurd hpc hne
    target := fun _ => sendsToFs_of_runnable hrun }

/-- PM goes on to `pc`, where it has no client. -/
theorem inv_leave (h : Inv s) {pc : Pc} (hne : pc ≠ .dispatch)
    (hleaver : ∀ q, pc.leaver = some q →
      NR_TASKS_NATIVE + NR_PROCS_NATIVE ≤ q)
    (hclient : pc.client = none) : Inv { s with pc := pc } :=
  { h with
    leaver := hleaver
    client := fun q hq => by
      have hsome : pc.client = some q := hq
      rw [hclient] at hsome
      cases hsome
    message := fun hpc => absurd hpc hne
    target := fun hpc => by
      rcases hpc with hd | hc
      · exact absurd hd hne
      · exact absurd hclient hc }

/-- PM writes a flag, a parent or a status into an entry. -/
theorem inv_upd (h : Inv s) (q : Int) {f : Proc → Proc}
    (hwait : ∀ y, SameWait (f y) y)
    (hfree : ∀ y, (f y).procState.freeSlot = y.procState.freeSlot)
    (hhang : (f (s.table q)).procState.hanging = true →
      (s.table q).procState.hanging = true ∨
        NR_TASKS_NATIVE + NR_PROCS_NATIVE ≤ q)
    (hsend : ∀ y, (f y).procState.sending = y.procState.sending ∧
      (f y).pidSendingto = y.pidSendingto) : Inv (s.upd q f) := by
  have hfree' : ∀ y, (s.table.upd q f y).procState.freeSlot =
      (s.table y).procState.freeSlot := by
    intro y
    by_cases hy : y = q
    · rw [hy, upd_self, hfree]
    · rw [upd_of_ne _ _ hy]
  refine ⟨?_, ?_, ?_, ?_, h.exits, h.leaver, h.client, h.message, ?_⟩
  · intro y call hy
    exact (blockedOnPm_congr (sameWait_upd hwait y)).mpr (h.asked y call hy)
  · intro y call hy
    exact (sameWait_upd hwait y).1.trans (h.sent y call hy)
  · intro y hy
    have hold := h.caller y hy
    exact ⟨hold.1, hold.2.1, (hfree' y).trans hold.2.2⟩
  · intro y hy hlt
    obtain ⟨hf, hh⟩ := h.native y hy hlt
    refine ⟨(hfree' y).trans hf, ?_⟩
    show (s.table.upd q f y).procState.hanging = false
    by_cases hyq : y = q
    · subst hyq
      rw [upd_self]
      by_contra hne
      rcases hhang (by simpa using hne) with hh' | hge
      · rw [hh] at hh'
        cases hh'
      · omega
    · rw [upd_of_ne _ _ hyq]
      exact hh
  · intro hpc
    have hold := h.target hpc
    show SendsToFs (s.table.upd q f)
    by_cases hq : TASK_PM = q
    · rw [SendsToFs, hq, upd_self, (hsend _).1, (hsend _).2, ← hq]
      exact hold
    · rw [SendsToFs, upd_of_ne _ _ hq]
      exact hold

/-- A forked process's slot becomes free. -/
theorem inv_free (h : Inv s) {q : Int}
    (hforked : NR_TASKS_NATIVE + NR_PROCS_NATIVE ≤ q) {k : After} :
    Inv { (s.upd q setFree).setUser q .running with pc := .next k } := by
  have hother : ∀ y, y ≠ q → s.table.upd q setFree y = s.table y :=
    fun y hy => upd_of_ne _ _ hy
  -- the freed slot has no call; the other slots keep theirs
  have huser : ∀ y u, u ≠ .running →
      ((s.upd q setFree).setUser q .running).user y = u → y ≠ q ∧
        s.user y = u := by
    intro y u hu hy
    by_cases hyq : y = q
    · have hr : ((s.upd q setFree).setUser q .running).user y = .running :=
        if_pos hyq
      rw [hr] at hy
      exact absurd hy.symm hu
    · have hs : ((s.upd q setFree).setUser q .running).user y = s.user y :=
        if_neg hyq
      rw [hs] at hy
      exact ⟨hyq, hy⟩
  have hpm : TASK_PM ≠ q := by
    rintro rfl
    exact absurd hforked (by decide)
  constructor
  case asked =>
    intro y call hy
    obtain ⟨hyq, hold⟩ := huser y _ (by simp) hy
    show BlockedOnPm (s.table.upd q setFree) y
    rw [BlockedOnPm, hother y hyq]
    exact h.asked y call hold
  case sent =>
    intro y call hy
    obtain ⟨hyq, hold⟩ := huser y _ (by simp) hy
    show (s.table.upd q setFree y).procState.receiving = false
    rw [hother y hyq]
    exact h.sent y call hold
  case caller =>
    intro y hy
    obtain ⟨hyq, hold⟩ := huser y _ hy rfl
    show InTable y ∧ NR_TASKS_NATIVE ≤ y ∧
      (s.table.upd q setFree y).procState.freeSlot = false
    rw [hother y hyq]
    exact h.caller y (by rw [hold]; exact hy)
  case native =>
    intro y hy hlt
    have hyq : y ≠ q := by omega
    show (s.table.upd q setFree y).procState.freeSlot = false ∧
      (s.table.upd q setFree y).procState.hanging = false
    rw [hother y hyq]
    exact h.native y hy hlt
  case exits =>
    intro y status hy
    rcases hy with hy | hy
    · exact h.exits y status (Or.inl (huser y _ (by simp) hy).2)
    · exact h.exits y status (Or.inr (huser y _ (by simp) hy).2)
  case leaver =>
    intro y hy
    cases k <;> cases hy
  case client =>
    intro y hy
    cases k <;> cases hy
  case message =>
    intro hpc
    cases k <;> cases hpc
  case target =>
    intro hpc
    cases k <;> rcases hpc with hpc | hpc <;>
      first | cases hpc | exact absurd rfl hpc

/-- A forked slot is a second caller in its parent's place. -/
theorem inv_forkSlot (h : Inv s)
    (hrun : (s.table TASK_PM).procState = RUNNABLE) {c base : Int}
    (huser : s.user p ≠ .running) (hc : InTable c)
    (hfree : (s.table c).procState = FREE_SLOT) :
    Inv (forkSlot s p c base) := by
  have hpc : p ≠ c := by
    rintro rfl
    have halive := (h.caller p huser).2.2
    rw [hfree] at halive
    cases halive
  have hforked : NR_TASKS_NATIVE + NR_PROCS_NATIVE ≤ c := by
    by_contra hlt
    have halive := (h.native c hc (by omega)).1
    rw [hfree] at halive
    cases halive
  have hself : (forkSlot s p c base).table c =
      childProc p base (s.table p) :=
    upd_self s.table c fun _ => childProc p base (s.table p)
  have hother : ∀ y, y ≠ c → (forkSlot s p c base).table y = s.table y :=
    fun y hy => upd_of_ne s.table (fun _ => childProc p base (s.table p)) hy
  have huself : (forkSlot s p c base).user c = s.user p := if_pos rfl
  have huother : ∀ y, y ≠ c → (forkSlot s p c base).user y = s.user y :=
    fun y hy => if_neg hy
  -- what holds of the parent holds of the child
  have hcases : ∀ y, ((forkSlot s p c base).user y = s.user p ∧ y = c) ∨
      (y ≠ c ∧ (forkSlot s p c base).user y = s.user y) := by
    intro y
    by_cases hy : y = c
    · exact Or.inl ⟨by rw [hy, huself], hy⟩
    · exact Or.inr ⟨hy, huother y hy⟩
  have hpm : TASK_PM ≠ c := by
    rintro rfl
    exact absurd hforked (by decide)
  constructor
  case asked =>
    intro y call hy
    rcases hcases y with ⟨hu, rfl⟩ | ⟨hyc, hu⟩ <;> rw [hu] at hy
    · rw [BlockedOnPm, hself]
      exact h.asked p call hy
    · rw [BlockedOnPm, hother y hyc]
      exact h.asked y call hy
  case sent =>
    intro y call hy
    rcases hcases y with ⟨hu, rfl⟩ | ⟨hyc, hu⟩ <;> rw [hu] at hy
    · rw [hself]
      exact h.sent p call hy
    · rw [hother y hyc]
      exact h.sent y call hy
  case caller =>
    intro y hy
    rcases hcases y with ⟨hu, rfl⟩ | ⟨hyc, hu⟩ <;> rw [hu] at hy
    · rw [hself]
      have hlt : NR_TASKS_NATIVE ≤ NR_TASKS_NATIVE + NR_PROCS_NATIVE := by
        decide
      exact ⟨hc, by omega, (h.caller p hy).2.2⟩
    · rw [hother y hyc]
      exact h.caller y hy
  case native =>
    intro y hy hlt
    have hyc : y ≠ c := by omega
    rw [hother y hyc]
    exact h.native y hy hlt
  case exits =>
    intro y status hy
    rcases hcases y with ⟨-, rfl⟩ | ⟨-, hu⟩
    · exact hforked
    · rw [hu] at hy
      exact h.exits y status hy
  case leaver =>
    intro y hy
    cases hy
  case client =>
    intro y hy
    obtain rfl : p = y := Option.some.inj hy
    rw [huother p hpc]
    exact huser
  case message =>
    intro hd
    cases hd
  case target =>
    intro _
    rw [SendsToFs, hother TASK_PM hpm]
    exact sendsToFs_of_runnable hrun

/-- The loop of `do_wait` keeps the invariant. -/
theorem inv_scanChildren (h : Inv s)
    (hrun : (s.table TASK_PM).procState = RUNNABLE) :
    ∀ {n : Nat} {i : Int} {hasChildren : Nat}, 0 ≤ i → i + n = 37 →
      Inv (scanChildren s p n i hasChildren) := by
  intro n
  induction n with
  | zero =>
      intro i hasChildren _ _
      rw [scanChildren]
      split
      · have h₁ : Inv (s.upd p (setWaiting true)) := by
          refine inv_upd h p ?_ ?_ ?_ ?_
          · intro y; exact ⟨rfl, rfl⟩
          · intro y; rfl
          · intro hh; exact Or.inl hh
          · intro y; exact ⟨rfl, rfl⟩
        exact inv_leave h₁ (by simp) (fun q hq => by cases hq) rfl
      · exact inv_leave h (by simp) (fun q hq => by cases hq) rfl
  | succ n ih =>
      intro i hasChildren h0 hn
      rw [scanChildren]
      split
      · split
        · rename_i hhang
          refine inv_goto h hrun (by simp) ?_ ?_
          · intro q hq
            obtain rfl := Option.some.inj hq
            by_contra hlt
            have hnative := (h.native i (by rw [inTable_iff]; omega)
              (by omega)).2
            rw [hnative] at hhang
            cases hhang
          · intro q hq
            cases hq
        · exact ih (by omega) (by omega)
      · exact ih (by omega) (by omega)

/-- The report of a status keeps it. -/
theorem inv_reportExit (h : Inv s) {status : Int}
    (hforked : NR_TASKS_NATIVE + NR_PROCS_NATIVE ≤ p) :
    Inv (reportExit s p status) := by
  have h₁ : Inv (s.upd p fun y => { y with exitStatus := status }) := by
    refine inv_upd h p ?_ ?_ ?_ ?_
    · intro y; exact ⟨rfl, rfl⟩
    · intro y; rfl
    · intro hh; exact Or.inl hh
    · intro y; exact ⟨rfl, rfl⟩
  rw [reportExit]
  dsimp only
  split
  · have h₂ : Inv ((s.upd p fun y => { y with exitStatus := status }).upd
        (s.table p).pParent (setWaiting false)) := by
      refine inv_upd h₁ _ ?_ ?_ ?_ ?_
      · intro y; exact ⟨rfl, rfl⟩
      · intro y; rfl
      · intro hh; exact Or.inl hh
      · intro y; exact ⟨rfl, rfl⟩
    refine inv_leave h₂ (by simp) (fun q hq => ?_) rfl
    obtain rfl := Option.some.inj hq
    exact hforked
  · have h₂ : Inv ((s.upd p fun y => { y with exitStatus := status }).upd p
        setHanging) := by
      refine inv_upd h₁ p ?_ ?_ ?_ ?_
      · intro y; exact ⟨rfl, rfl⟩
      · intro y; rfl
      · intro _; exact Or.inr hforked
      · intro y; exact ⟨rfl, rfl⟩
    exact inv_leave h₂ (by simp) (fun q hq => by cases hq) rfl

/-- A new parent keeps it. -/
theorem inv_adoptOne (h : Inv s) {i : Nat} : Inv (adoptOne s p i) := by
  rw [adoptOne]
  split
  · rename_i hi
    split
    · have h₁ : Inv (s.upd i (setParent INIT)) := by
        refine inv_upd h i ?_ ?_ ?_ ?_
        · intro y; exact ⟨rfl, rfl⟩
        · intro y; rfl
        · intro hh; exact Or.inl hh
        · intro y; exact ⟨rfl, rfl⟩
      dsimp only
      split
      · rename_i hboth
        have h₂ : Inv ((s.upd i (setParent INIT)).upd INIT
            (setWaiting false)) := by
          refine inv_upd h₁ INIT ?_ ?_ ?_ ?_
          · intro y; exact ⟨rfl, rfl⟩
          · intro y; rfl
          · intro hh; exact Or.inl hh
          · intro y; exact ⟨rfl, rfl⟩
        refine inv_leave h₂ (by simp) (fun q hq => ?_) rfl
        obtain rfl := Option.some.inj hq
        by_contra hlt
        have hin : InTable (i : Int) := ⟨Int.natCast_nonneg i, hi⟩
        have hnative := (h₁.native i hin (by omega)).2
        rw [hnative] at hboth
        cases hboth.2
      · exact inv_leave h₁ (by simp) (fun q hq => by cases hq) rfl
    · exact inv_leave h (by simp) (fun q hq => by cases hq) rfl
  · exact inv_leave h (by simp) (fun q hq => by cases hq) rfl

/-- A RECEIVE of a process that has not asked keeps it. -/
theorem inv_rcv_running (h : Inv s) (huser : s.user p = .running)
    (hcall : s.rcv x p src = .ok s') : Inv s' := by
  have hcall' : (s.setUser p .running).rcv x p src = .ok s' := by
    rw [← huser, setUser_self]
    exact hcall
  exact inv_rcv h (Or.inl ⟨rfl, huser⟩) hcall'

/-- PM itself makes no requests. -/
theorem user_pm (h : Inv s) : s.user TASK_PM = .running := by
  by_contra hne
  exact absurd (h.caller _ hne).2.1 (by decide)

/-- What PM does with a message keeps it. -/
theorem inv_dispatch (h : Inv s) (hpc : s.pc = .dispatch)
    (hrun : (s.table TASK_PM).procState = RUNNABLE)
    (hcall : dispatch x s = .ok s') : Inv s' := by
  unfold dispatch at hcall
  have hcaller : ∀ p call, s.pmMsg = some (p, call) →
      s.user p ≠ .running := by
    intro p call hmsg
    rcases h.message hpc p call hmsg with hu | hu <;> rw [hu] <;> simp
  split at hcall
  · cases hcall
  · rename_i src hmsg
    split at hcall
    · obtain rfl := pure_eq_ok.mp hcall
      exact inv_leave h (by simp) (fun q hq => by cases hq) rfl
    · rename_i c hfind
      simp only [bind_eq_ok, pure_eq_ok] at hcall
      obtain ⟨base, -, rfl⟩ := hcall
      obtain ⟨hc, hfree⟩ :=
        findFree_eq_some (n := 37) (i := 0) (by decide) (by decide) hfind
      exact inv_forkSlot h hrun (hcaller src .fork hmsg) hc hfree
  · rename_i src hmsg
    obtain rfl := pure_eq_ok.mp hcall
    refine inv_goto h hrun (by simp) (fun q hq => by cases hq) fun q hq => ?_
    obtain rfl := Option.some.inj hq
    exact hcaller src .exec hmsg
  · rename_i src status hmsg
    obtain rfl := pure_eq_ok.mp hcall
    refine inv_goto h hrun (by simp) (fun q hq => ?_) fun q hq => by cases hq
    obtain rfl := Option.some.inj hq
    exact h.exits src status (h.message hpc src _ hmsg)
  · obtain rfl := pure_eq_ok.mp hcall
    exact inv_scanChildren h hrun (by decide) (by decide)

/-- Behind FS the process that exits is the one before. -/
theorem leaver_afterFs {ok : Bool} {src q : Int} {job : Job}
    (h : (afterFs ok src job).leaver = some q) :
    (Pc.hear src job).leaver = some q := by
  cases job <;> cases ok <;> exact h

/-- And so is the client. -/
theorem client_afterFs {ok : Bool} {src q : Int} {job : Job}
    (h : (afterFs ok src job).client = some q) :
    (Pc.hear src job).client = some q := by
  cases job <;> cases ok <;> first | exact h | cases h

/-- **PM** keeps the invariant, one case for each place it can be. -/
theorem inv_pmStep (h : Inv s) (hrun : (s.table TASK_PM).procState = RUNNABLE)
    (hcall : pmStep x s = .ok s') : Inv s' := by
  have hpm := user_pm h
  cases hpc : s.pc with
  | receive =>
      simp only [pmStep, hpc] at hcall
      have h₁ : Inv { s with pc := .dispatch, pmMsg := none } :=
        { h with
          leaver := fun q hq => by cases hq
          client := fun q hq => by cases hq
          message := fun _ q call hmsg => by cases hmsg
          target := fun _ => sendsToFs_of_runnable hrun }
      exact inv_rcv_running h₁ hpm hcall
  | dispatch =>
      simp only [pmStep, hpc] at hcall
      exact inv_dispatch h hpc hrun hcall
  | tell src job =>
      simp only [pmStep, hpc] at hcall
      have hclient := h.client
      have hleaver := h.leaver
      rw [hpc] at hclient hleaver
      refine inv_send (inv_goto h hrun (by simp) ?_ ?_)
        (fun _ => Or.inl rfl) hcall
      · cases job <;> exact hleaver
      · cases job <;> exact hclient
  | hear src job =>
      simp only [pmStep, hpc] at hcall
      have hclient := h.client
      have hleaver := h.leaver
      rw [hpc] at hclient hleaver
      have h₁ : Inv { s with pc := afterFs x.ok src job } := by
        refine inv_goto h hrun ?_ ?_ ?_
        · cases job <;> cases x.ok <;> simp [afterFs]
        · intro q hq
          exact hleaver q (leaver_afterFs hq)
        · intro q hq
          exact hclient q (client_afterFs hq)
      exact inv_rcv_running h₁ hpm hcall
  | birth src childPid =>
      simp only [pmStep, hpc] at hcall
      exact inv_send (inv_leave h (by simp) (fun q hq => by cases hq) rfl)
        (fun _ => Or.inr ⟨by simp, rfl⟩) hcall
  | overwrite src =>
      simp only [pmStep, hpc, pure_eq_ok] at hcall
      subst hcall
      have hclient := h.client
      rw [hpc] at hclient
      refine inv_goto h hrun ?_ ?_ ?_
      · cases x.ok <;> simp
      · intro q hq
        cases hok : x.ok <;> rw [hok] at hq <;> cases hq
      · intro q hq
        cases hok : x.ok <;> rw [hok] at hq
        · cases hq
        · exact hclient q hq
  | report currentPid status =>
      simp only [pmStep, hpc, pure_eq_ok] at hcall
      subst hcall
      have hleaver := h.leaver
      rw [hpc] at hleaver
      exact inv_reportExit h (hleaver currentPid rfl)
  | cleanup pid k =>
      simp only [pmStep, hpc] at hcall
      have hleaver := h.leaver
      rw [hpc] at hleaver
      have h₁ : Inv { s with pc := .cleaned pid k } :=
        inv_leave h (by simp) hleaver rfl
      exact inv_send h₁ (fun _ => Or.inr ⟨by simp, rfl⟩) hcall
  | cleaned pid k =>
      simp only [pmStep, hpc, pure_eq_ok] at hcall
      subst hcall
      have hleaver := h.leaver
      rw [hpc] at hleaver
      exact inv_free h (hleaver pid rfl)
  | adopt currentPid i =>
      simp only [pmStep, hpc, pure_eq_ok] at hcall
      subst hcall
      exact inv_adoptOne h
  | reply src =>
      simp only [pmStep, hpc] at hcall
      exact inv_send (inv_leave h (by simp) (fun q hq => by cases hq) rfl)
        (fun _ => Or.inr ⟨by simp, rfl⟩) hcall

/-- **STEP**: every step keeps the invariant. -/
theorem inv_step {e : Event} (h : Inv s) (hstep : Step s e s') : Inv s' := by
  cases hstep with
  | send hq hr hpm huser hrun hcall =>
      exact inv_send h (fun hp => absurd hp hpm) hcall
  | rcv hq hsrc hpm huser hrun hcall => exact inv_rcv_running h huser hcall
  | ask hq htask hforked huser hrun hcall =>
      refine inv_send (inv_sent h hq htask hforked huser hrun) ?_ hcall
      rintro rfl
      exact absurd htask (by decide)
  | listen huser hrun hcall =>
      exact inv_rcv h (Or.inr ⟨_, rfl, huser, rfl⟩) hcall
  | hwInt hp hpm hcall => exact inv_hwInt h hpm hcall
  | outside hin => exact inv_outside h hin
  | pm hrun hcall => exact inv_pmStep h hrun hcall

/-- At boot nobody has asked. -/
theorem inv_boot (h : Boot s) : Inv s := by
  obtain ⟨kTop, outside, htab⟩ := h.table
  have hpc := h.pc
  constructor
  case asked =>
    intro q call hq
    rw [h.user q] at hq
    cases hq
  case sent =>
    intro q call hq
    rw [h.user q] at hq
    cases hq
  case caller =>
    intro q hq
    exact absurd (h.user q) hq
  case native =>
    intro q hq hlt
    rw [htab, initProcess, if_neg (by simpa using hq), if_neg (by omega)]
    split <;> exact ⟨rfl, rfl⟩
  case exits =>
    intro q status hq
    rw [h.user q] at hq
    rcases hq with hq | hq <;> cases hq
  case leaver =>
    intro q hq
    rw [hpc] at hq
    cases hq
  case client =>
    intro q hq
    rw [hpc] at hq
    cases hq
  case message =>
    intro hd
    rw [hpc] at hd
    cases hd
  case target =>
    intro hd
    rw [hpc] at hd
    rcases hd with hd | hd
    · cases hd
    · exact absurd rfl hd

/-- The invariant in every state of a run. -/
theorem inv_reach {guard : Sys → Event → Prop} (h : Reach Boot Step guard s) :
    Inv s :=
  reach_invariant Inv (fun _ h => inv_boot h)
    (fun _ _ _ h _ hstep => inv_step h hstep) h

/-! ## The child -/

/-- A child without its birth message has made its second call. -/
def Unborn (s : Sys) : Prop :=
  ∀ c, s.pc.newborn = some c → ∃ call, s.user c = .asked call

/-- A SEND leaves PM where it is. -/
theorem pc_send (hcall : s.send x p r = .ok s') : s'.pc = s.pc := by
  simp only [Sys.send, bind_eq_ok, pure_eq_ok] at hcall
  obtain ⟨res, -, rfl⟩ := hcall
  exact pc_settle _ _

/-- So does a RECEIVE. -/
theorem pc_rcv (hcall : s.rcv x p src = .ok s') : s'.pc = s.pc := by
  simp only [Sys.rcv, bind_eq_ok, pure_eq_ok] at hcall
  obtain ⟨res, -, rfl⟩ := hcall
  exact pc_settle _ _

/-- Only PM's SEND to a process tells it something. -/
theorem user_send (hcall : s.send x p r = .ok s') {q : Int}
    (hq : p = TASK_PM → q ≠ r) : s'.user q = s.user q := by
  simp only [Sys.send, bind_eq_ok, pure_eq_ok] at hcall
  obtain ⟨⟨T', w⟩, hcall, rfl⟩ := hcall
  rcases user_settle { s with table := T' } w q with hu | ⟨-, d, c, hw⟩
  · exact hu
  · rcases writes_send hcall with hw' | ⟨-, d', c', hw'⟩
    · rw [hw'] at hw
      cases hw
    · rw [hw'] at hw
      simp only [List.cons.injEq, Write.copyMsg.injEq, and_true] at hw
      obtain ⟨rfl, rfl, -⟩ := hw
      exact absurd rfl (hq rfl)

/-- A RECEIVE moves its own process only. -/
theorem user_rcv (hcall : s.rcv x p src = .ok s') {q : Int} (hq : q ≠ p) :
    s'.user q = s.user q := by
  simp only [Sys.rcv, bind_eq_ok, pure_eq_ok] at hcall
  obtain ⟨⟨T', w⟩, hcall, rfl⟩ := hcall
  rcases user_settle { s with table := T' } w q with hu | ⟨-, d, c, hw⟩
  · exact hu
  · exact absurd (writes_rcv hcall hw).1 hq

/-- A process past its second call does not run. -/
theorem ne_of_asked (h : Inv s) {c q : Int} {call : Call}
    (hc : s.user c = .asked call) (hrun : (s.table q).procState = RUNNABLE) :
    c ≠ q := by
  rintro rfl
  have hblk := (h.asked c call hc).1
  rw [hrun] at hblk
  cases hblk

/-- A child that has not asked stays so. -/
theorem unborn_keep (h : Unborn s) (hpc : s'.pc = s.pc)
    (huser : ∀ c call, s.user c = .asked call → s'.user c = s.user c) :
    Unborn s' := by
  intro c hc
  rw [hpc] at hc
  obtain ⟨call, hcall⟩ := h c hc
  exact ⟨call, by rw [huser c call hcall, hcall]⟩

theorem unborn_of_none (hpc : s.pc.newborn = none) : Unborn s := by
  intro c hc
  rw [hpc] at hc
  cases hc

/-- `do_wait` makes no child. -/
theorem newborn_scanChildren (s : Sys) (p : Int) :
    ∀ (n : Nat) (i : Int) (hasChildren : Nat),
      (scanChildren s p n i hasChildren).pc.newborn = none := by
  intro n
  induction n with
  | zero =>
      intro i hasChildren
      rw [scanChildren]
      split <;> rfl
  | succ n ih =>
      intro i hasChildren
      rw [scanChildren]
      split
      · split
        · rfl
        · exact ih _ _
      · exact ih _ _

/-- `do_fork` copies a caller that has made its second call. -/
theorem unborn_dispatch (h : Inv s) (hpc : s.pc = .dispatch)
    (hsecond : ∀ p, s.pmMsg = some (p, .fork) → findFree s.table 37 0 ≠ none →
      SecondCallMade s p)
    (hcall : dispatch x s = .ok s') : Unborn s' := by
  unfold dispatch at hcall
  split at hcall
  · cases hcall
  · rename_i src hmsg
    split at hcall
    · obtain rfl := pure_eq_ok.mp hcall
      exact unborn_of_none rfl
    · rename_i c hfind
      simp only [bind_eq_ok, pure_eq_ok] at hcall
      obtain ⟨base, -, rfl⟩ := hcall
      intro c' hc
      obtain rfl : c = c' := Option.some.inj hc
      have huser : (forkSlot s src c base).user c = s.user src := if_pos rfl
      rcases h.message hpc src _ hmsg with hu | hu
      · exact absurd hu (hsecond src hmsg (by rw [hfind]; simp) _)
      · exact ⟨_, huser.trans hu⟩
  · obtain rfl := pure_eq_ok.mp hcall
    exact unborn_of_none rfl
  · obtain rfl := pure_eq_ok.mp hcall
    exact unborn_of_none rfl
  · obtain rfl := pure_eq_ok.mp hcall
    exact unborn_of_none (newborn_scanChildren _ _ _ _ _)

/-- Behind FS the child is the one before. -/
theorem newborn_afterFs {ok : Bool} {src c : Int} {job : Job}
    (h : (afterFs ok src job).newborn = some c) :
    (Pc.hear src job).newborn = some c := by
  cases job <;> cases ok <;> exact h

/-- A step of PM keeps the child unborn. -/
theorem unborn_pmStep (h : Inv s)
    (hrun : (s.table TASK_PM).procState = RUNNABLE) (hborn : Unborn s)
    (hguard : SecondCallFirst s .pm) (hcall : pmStep x s = .ok s') :
    Unborn s' := by
  have hpm := user_pm h
  cases hpc : s.pc with
  | receive =>
      simp only [pmStep, hpc] at hcall
      exact unborn_of_none (by rw [pc_rcv hcall]; rfl)
  | dispatch =>
      simp only [pmStep, hpc] at hcall
      refine unborn_dispatch h hpc (fun p hmsg hfind => ?_) hcall
      exact hguard rfl p ⟨hrun, Or.inl ⟨hpc, hmsg, hfind⟩⟩
  | tell src job =>
      simp only [pmStep, hpc] at hcall
      -- PM blocks on FS, and the child is still where the fork put it
      intro c hc
      rw [pc_send hcall] at hc
      have hold : s.pc.newborn = some c := by
        rw [hpc]
        cases job <;> exact hc
      obtain ⟨call, hu⟩ := hborn c hold
      refine ⟨call, ?_⟩
      rw [user_send hcall]
      · exact hu
      · intro _
        exact ne_fs h (by rw [hu]; simp)
  | hear src job =>
      simp only [pmStep, hpc] at hcall
      intro c hc
      rw [pc_rcv hcall] at hc
      obtain ⟨call, hu⟩ := hborn c (by rw [hpc]; exact newborn_afterFs hc)
      refine ⟨call, ?_⟩
      rw [user_rcv hcall (ne_of_asked h hu hrun)]
      exact hu
  | birth src childPid =>
      simp only [pmStep, hpc] at hcall
      exact unborn_of_none (by rw [pc_send hcall]; rfl)
  | overwrite src =>
      simp only [pmStep, hpc, pure_eq_ok] at hcall
      subst hcall
      refine unborn_of_none ?_
      cases x.ok <;> rfl
  | report currentPid status =>
      simp only [pmStep, hpc, pure_eq_ok] at hcall
      subst hcall
      refine unborn_of_none ?_
      rw [reportExit]
      dsimp only
      split <;> rfl
  | cleanup pid k =>
      simp only [pmStep, hpc] at hcall
      exact unborn_of_none (by rw [pc_send hcall]; rfl)
  | cleaned pid k =>
      simp only [pmStep, hpc, pure_eq_ok] at hcall
      subst hcall
      refine unborn_of_none ?_
      cases k <;> rfl
  | adopt currentPid i =>
      simp only [pmStep, hpc, pure_eq_ok] at hcall
      subst hcall
      refine unborn_of_none ?_
      rw [adoptOne]
      split
      · split
        · dsimp only
          split <;> rfl
        · rfl
      · rfl
  | reply src =>
      simp only [pmStep, hpc] at hcall
      exact unborn_of_none (by rw [pc_send hcall]; rfl)

/-- **STEP**: a run whose copies come after the second call keeps every child
    waiting for its birth message. -/
theorem unborn_step {e : Event} (h : Inv s) (hborn : Unborn s)
    (hguard : SecondCallFirst s e) (hstep : Step s e s') : Unborn s' := by
  cases hstep with
  | send hq hr hpm huser hrun hcall =>
      refine unborn_keep hborn (pc_send hcall) fun c call hc => ?_
      exact user_send hcall fun hp => absurd hp hpm
  | rcv hq hsrc hpm huser hrun hcall =>
      refine unborn_keep hborn (pc_rcv hcall) fun c call hc => ?_
      exact user_rcv hcall (ne_of_asked h hc hrun)
  | ask hq htask hforked huser hrun hcall =>
      have hpc := pc_send hcall
      refine unborn_keep hborn hpc fun c call hc => ?_
      refine (user_send hcall ?_).trans (if_neg (ne_of_asked h hc hrun))
      rintro rfl
      exact absurd htask (by decide)
  | listen huser hrun hcall =>
      have hpc := pc_rcv hcall
      refine unborn_keep hborn hpc fun c call hc => ?_
      have hne := ne_of_asked h hc hrun
      exact (user_rcv hcall hne).trans (if_neg hne)
  | hwInt hp hpm hcall => exact hborn
  | outside hin => exact hborn
  | pm hrun hcall => exact unborn_pmStep h hrun hborn hguard hcall

/-- Under the condition no child asks before its birth. -/
theorem unborn_reach (h : Reach Boot Step SecondCallFirst s) : Unborn s := by
  refine reach_invariant_of Inv Unborn (fun _ => inv_reach) ?_ ?_ h
  · intro s hboot
    exact unborn_of_none (by rw [hboot.pc]; rfl)
  · intro s e s' hinv _ hborn hguard hstep
    exact unborn_step hinv hborn hguard hstep

/-- The birth message of a waiting child reaches it at once. -/
theorem birth_delivers {src c : Int} {call : Call} (h : Inv s)
    (hc : s.user c = .asked call) (hpc : s.pc = .birth src c)
    (hcall : pmStep x s = .ok s') :
    s'.user c = .running ∧ ¬ BlockedOnPm s'.table c := by
  obtain ⟨hrec, hfrom⟩ := h.asked c call hc
  simp only [pmStep, hpc, Sys.send, bind_eq_ok, pure_eq_ok] at hcall
  obtain ⟨⟨T', w⟩, hcall, rfl⟩ := hcall
  obtain ⟨-, -, hdir | hblk⟩ := kernelMsgSend_cases hcall
  · obtain ⟨dst, a, -, -, hw⟩ := hdir.writes
    subst hw
    refine ⟨if_pos rfl, ?_⟩
    rw [table_settle]
    show ¬ BlockedOnPm T' c
    rw [BlockedOnPm, hdir.table, upd_self]
    rintro ⟨hr, -⟩
    cases hr
  · exact absurd ⟨hrec, Or.inl hfrom⟩ hblk.notWaiting

/-- **BLOCKED EXACTLY AFTER THE SECOND CALL**: in any run, at the moment PM
    copies or overwrites a process. -/
theorem blocked_iff (h : Inv s) (hrew : Rewrites s p) :
    BlockedOnPm s.table p ↔ SecondCallMade s p := by
  have huser : s.user p ≠ .running := by
    rcases hrew.2 with ⟨hpc, hmsg, -⟩ | hpc
    · rcases h.message hpc p _ hmsg with hu | hu <;> rw [hu] <;> simp
    · exact h.client p (by rw [hpc]; rfl)
  constructor
  · intro hblk call hsent
    have hidle := h.sent p call hsent
    rw [hblk.1] at hidle
    cases hidle
  · intro hsecond
    cases hu : s.user p with
    | running => exact absurd hu huser
    | sent call => exact absurd hu (hsecond call)
    | asked call => exact h.asked p call hu

/-- **PM REWRITES BLOCKED CALLERS**: in every run, a process that PM copies or
    overwrites is RECEIVING from PM if and only if it has made its second call;
    in the runs where it always has, a child waits, and does not run, until
    its birth message, which is delivered at once. -/
theorem rewrites_blocked (s : Sys) :
    (Reach Boot Step free s → ∀ p, Rewrites s p →
      (BlockedOnPm s.table p ↔ SecondCallMade s p)) ∧
    (Reach Boot Step SecondCallFirst s →
      (∀ s', SecondCallFirst s .pm → Step s .pm s' →
        ∀ p, Rewrites s p → BlockedOnPm s.table p) ∧
      ∀ c, s.pc.newborn = some c →
        BlockedOnPm s.table c ∧ (s.table c).procState ≠ RUNNABLE ∧
        ∀ src s', s.pc = .birth src c → Step s .pm s' →
          s'.user c = .running ∧ ¬ BlockedOnPm s'.table c) := by
  refine ⟨fun h p hrew => blocked_iff (inv_reach h) hrew, fun h => ⟨?_, ?_⟩⟩
  · intro s' hguard hstep p hrew
    exact (blocked_iff (inv_reach h) hrew).mpr (hguard rfl p hrew)
  · intro c hc
    have hinv := inv_reach h
    obtain ⟨call, hu⟩ := unborn_reach h c hc
    have hblk := hinv.asked c call hu
    refine ⟨hblk, ?_, ?_⟩
    · intro hrun
      exact ne_of_asked hinv hu hrun rfl
    · intro src s' hpc hstep
      cases hstep with
      | pm hrun hcall => exact birth_delivers hinv hu hpc hcall

/-! ## A fork, with the second call before and after the copy -/

/-- The machine behind `init_process`. -/
def bootSys : Sys where
  table := initProcess 0xFFFFF fun _ => freeProc
  pc := .receive
  pmMsg := none
  user := fun _ => .running

/-- PM waits for a message. -/
def waitingSys : Sys :=
  { bootSys.upd TASK_PM (blockedReceiving ANY 0x1000) with pc := .dispatch }

/-- INIT's SEND has been delivered to PM. -/
def sentSys : Sys :=
  { (waitingSys.upd TASK_PM delivered).setUser INIT (.sent .fork) with
    pmMsg := some (INIT, .fork) }

/-- INIT has called RECEIVE as well. -/
def askedSys : Sys :=
  (sentSys.upd INIT (blockedReceiving TASK_PM 0x1000)).setUser INIT
    (.asked .fork)

/-- Enough fuel and room for the runs below. -/
def quick : Choice := ⟨1, 0x1000, 0x2000000, true⟩

theorem waitingSys_step : Step bootSys .pm waitingSys := by
  have hcall : pmStep quick bootSys = .ok waitingSys := rfl
  exact .pm rfl hcall

theorem sentSys_step : Step waitingSys (.ask INIT .fork) sentSys := by
  have hcall : (waitingSys.setUser INIT (.sent .fork)).send quick INIT TASK_PM =
      .ok sentSys := rfl
  refine .ask (by decide) (by decide) ?_ rfl (by decide) hcall
  intro status h
  cases h

theorem askedSys_step : Step sentSys (.listen INIT) askedSys := by
  have huser : sentSys.user INIT = .sent .fork := rfl
  have hcall : (sentSys.setUser INIT (.asked .fork)).rcv quick INIT TASK_PM =
      .ok askedSys := rfl
  exact .listen huser (by decide) hcall

/-- PM copies process 5 into slot 9. -/
theorem forkSlot_step {s : Sys} (hpc : s.pc = .dispatch)
    (hmsg : s.pmMsg = some (INIT, .fork))
    (hrun : (s.table TASK_PM).procState = RUNNABLE)
    (hfind : findFree s.table 37 0 = some 9)
    (hbase : childBase 0x2000000 (s.table INIT) 9 = .ok 0xA00000) :
    Rewrites s INIT ∧ Step s .pm (forkSlot s INIT 9 0xA00000) := by
  have hcall : pmStep quick s = .ok (forkSlot s INIT 9 0xA00000) := by
    simp only [pmStep, hpc, dispatch, hmsg, hfind, quick, hbase]
    rfl
  refine ⟨⟨hrun, Or.inl ⟨hpc, hmsg, ?_⟩⟩, .pm hrun hcall⟩
  rw [hfind]
  simp

theorem bootSys_boot : Boot bootSys := ⟨⟨_, _, rfl⟩, rfl, fun _ => rfl⟩

/-- INIT has made both calls when PM copies it: its child waits. -/
theorem rewrites_blocked_asked :
    BlockedOnPm askedSys.table INIT ∧
      BlockedOnPm (forkSlot askedSys INIT 9 0xA00000).table 9 := by
  have hidle : SecondCallFirst bootSys .pm := by
    intro _ p hrew
    rcases hrew.2 with ⟨hpc, -⟩ | hpc <;> cases hpc
  have hask : SecondCallFirst waitingSys (.ask INIT .fork) := by
    intro h; cases h
  have hlisten : SecondCallFirst sentSys (.listen INIT) := by
    intro h; cases h
  have hreach : Reach Boot Step SecondCallFirst askedSys :=
    .next (.next (.next (.start bootSys_boot) hidle waitingSys_step) hask
      sentSys_step) hlisten askedSys_step
  obtain ⟨hrew, hstep⟩ := forkSlot_step (s := askedSys) rfl rfl (by decide)
    (by decide +kernel) (by decide +kernel)
  have hfork : SecondCallFirst askedSys .pm := by
    intro _ p hrew' call hcall
    rcases hrew'.2 with ⟨-, hmsg, -⟩ | hpc
    · cases hmsg
      cases hcall
    · cases hpc
  have hblk := ((rewrites_blocked askedSys).2 hreach).1 _ hfork hstep INIT hrew
  refine ⟨hblk, ?_⟩
  exact (((rewrites_blocked (forkSlot askedSys INIT 9 0xA00000)).2
    (.next hreach hfork hstep)).2 9 rfl).1

/-- INIT is preempted between its two calls: PM copies it while it is RUNNABLE,
    and slot 9 is RUNNABLE before its birth message. -/
theorem child_runs_unborn :
    ¬ ∀ s, Reach Boot Step free s →
      (∀ p, Rewrites s p → BlockedOnPm s.table p) ∧
        ∀ c, s.pc.newborn = some c → (s.table c).procState ≠ RUNNABLE := by
  intro hall
  have hreach : Reach Boot Step free sentSys :=
    .next (.next (.start bootSys_boot) trivial waitingSys_step) trivial
      sentSys_step
  obtain ⟨hrew, hstep⟩ := forkSlot_step (s := sentSys) rfl rfl (by decide)
    (by decide +kernel) (by decide +kernel)
  have hcopied := (hall _ (.next hreach trivial hstep)).2 9 rfl
  exact hcopied (by decide +kernel)

end KosForkExec
