import Kos.SyscallProofs

/-! # Delivery of messages

    Runs of processes that call SEND and RECEIVE through
    `sys_send_rcv_handler`, with interrupts, with a ghost record of every call.

    * a record opens when the call enters the handler, collects what the
      kernel's writes put into or take from the caller's buffer, and completes
      when the caller is runnable again;
    * the table says of every open call whom it waits for and where its message
      lies (`Inv`); a step opens, pairs or interrupts calls
      (`inv_settle`);
    * as long as no message is mistaken for a print and nobody else touches the
      buffer of an open call, every completed SEND is paired with one RECEIVE
      and every completed RECEIVE got one message (`delivery_exactly_once`). -/

namespace KosDelivery

open FlatMemory KosKernel KosIpc KosSyscall GuardedRun

/-! ## Calls on record -/

/-- The bytes of a message. -/
abbrev Msg := Fin MESSAGE_SIZE → Byte

/-- A message in memory. -/
def readMsg (mem : Mem) (a : Addr) : Msg := fun i => readBlock mem a i

/-- The little-endian word at offset `k` of a message. -/
def msgWord (b : Msg) (k : Nat) (hk : k + 3 < MESSAGE_SIZE) : BitVec 32 :=
  b ⟨k + 3, hk⟩ ++ b ⟨k + 2, by omega⟩ ++ b ⟨k + 1, by omega⟩ ++
    b ⟨k, by omega⟩

/-- Its field `source`. -/
def msgSource (b : Msg) : BitVec 32 := msgWord b 0 (by decide)

/-- Its field `type`. -/
def msgType (b : Msg) : BitVec 32 := msgWord b 4 (by decide)

/-- What a write has put into a buffer, or taken from one. -/
inductive Delivery where
  /-- the message of a SEND, as it arrived at `dst`; `peer` is the other call -/
  | copied (peer : Option Nat) (dst : Addr) (b : Msg)
  | interrupt (dst : Addr) (b : Msg)

/-- The record of one call.  `buf` is the linear address of the message, `msg`
    its bytes at the time of the call with the caller as source. -/
structure Call where
  caller : Int
  function : Int
  partner : Int
  buf : Addr
  msg : Msg
  deliveries : List Delivery := []
  completed : Bool := false

/-- The kernel's state with the record of all calls, numbered from 0, and the
    open call of each process. -/
structure Sys where
  table : Table
  mem : Mem
  next : Nat
  calls : Nat → Option Call
  opened : Int → Option Nat

/-- What the write means for the call `n`; `mem` is the memory after it. -/
def deliveriesTo (opened : Int → Option Nat) (mem : Mem) (n : Nat) :
    Write → List Delivery
  | .copyMsg r s dst _ =>
      (if opened s = some n then [.copied (opened r) dst (readMsg mem dst)]
        else []) ++
      if opened r = some n then [.copied (opened s) dst (readMsg mem dst)]
        else []
  | .copyIntMsg r dst | .setIntMsg r dst =>
      if opened r = some n then [.interrupt dst (readMsg mem dst)] else []

/-- The record after the writes `w`: a call whose caller runs is complete. -/
def settleCall (opened : Int → Option Nat) (T : Table) (mem : Mem)
    (w : List Write) (n : Nat) (c : Call) : Call :=
  { c with
    deliveries := c.deliveries ++ w.flatMap (deliveriesTo opened mem n)
    completed := c.completed ||
      decide (opened c.caller = some n ∧ (T c.caller).procState = RUNNABLE) }

/-- The system behind a call. -/
def Sys.settle (σ : Sys) (T : Table) (mem : Mem) (w : List Write) : Sys where
  table := T
  mem := mem
  next := σ.next
  calls := fun n => (σ.calls n).map (settleCall σ.opened T mem w n)
  opened := fun p => if (T p).procState = RUNNABLE then none else σ.opened p

/-- Open a record. -/
def Sys.enter (σ : Sys) (c : Call) : Sys :=
  { σ with
    next := σ.next + 1
    calls := fun n => if n = σ.next then some c else σ.calls n
    opened := fun p => if p = c.caller then some σ.next else σ.opened p }

/-- The linear address of the caller's message. -/
def msgLa (T : Table) (caller : Int) (m : Addr) : Addr :=
  gdtLdtToBaseAddr (T caller).ldtRw + m

/-- The caller asks for a print and gets it. -/
def IsPrint (σ : Sys) (caller : Int) (m : Addr) : Prop :=
  type σ.mem (msgLa σ.table caller m) = PRINTX ∧ type σ.mem m = PRINTX

instance (σ : Sys) (caller : Int) (m : Addr) : Decidable (IsPrint σ caller m) :=
  inferInstanceAs (Decidable (_ ∧ _))

/-- The memory with the caller stamped into the message. -/
def stamped (σ : Sys) (caller : Int) (m : Addr) : Mem :=
  writeU32 σ.mem (msgLa σ.table caller m) (BitVec.ofInt 32 caller)

/-- The record a call starts with. -/
def newCall (σ : Sys) (caller function partner : Int) (m : Addr) : Call where
  caller := caller
  function := function
  partner := partner
  buf := msgLa σ.table caller m
  msg := readMsg (stamped σ caller m) (msgLa σ.table caller m)

/-! ## Runs -/

/-- What may happen next. -/
inductive Event where
  | call (caller function partner : Int) (m : Addr)
  | hwInt (taskNr : Int)
  | user (T' : Table) (mem' : Mem)

/-- One step.  A running process may write anywhere in memory but into the
    process table. -/
inductive Step : Sys → Event → Sys → Prop where
  | print {fuel : Nat} {σ : Sys} {p f partner : Int} {m : Addr}
      {ret : Returned} (hp : InTable p)
      (hrun : (σ.table p).procState = RUNNABLE) (hprint : IsPrint σ p m)
      (hcall : sysSendRcvHandler fuel 0 σ.table σ.mem f partner m p =
        .ok ret) :
      Step σ (.call p f partner m) { σ with table := ret.table, mem := ret.mem }
  | call {fuel : Nat} {σ : Sys} {p f partner : Int} {m : Addr}
      {ret : Returned} (hp : InTable p)
      (hrun : (σ.table p).procState = RUNNABLE) (hprint : ¬ IsPrint σ p m)
      (hcall : sysSendRcvHandler fuel 0 σ.table σ.mem f partner m p =
        .ok ret) :
      Step σ (.call p f partner m)
        ((σ.enter (newCall σ p f partner m)).settle ret.table ret.mem
          ret.writes)
  | hwInt {σ : Sys} {p : Int} {res : Table × List Write}
      (hp : p = TASK_TTY ∨ p = TASK_HD)
      (hcall : hwIntNotification σ.table p = .ok res) :
      Step σ (.hwInt p)
        (σ.settle res.1 (res.2.foldl applyWrite σ.mem) res.2)
  | user {σ : Sys} {T' : Table} {mem' : Mem}
      (hin : ∀ p, InTable p → T' p = σ.table p) :
      Step σ (.user T' mem') { σ with table := T', mem := mem' }

/-- A start: nobody is in a call, and the native processes are flat. -/
structure Start (σ : Sys) : Prop where
  idle : ∀ p, InTable p → (σ.table p).procState.sending = false ∧
    (σ.table p).procState.receiving = false ∧
    (σ.table p).qPendingProc = none
  flat : ∀ p, InTable p → p < NR_TASKS_NATIVE + NR_PROCS_NATIVE →
    gdtLdtToBaseAddr (σ.table p).ldtRw = 0
  calls : ∀ n, σ.calls n = none
  opened : ∀ p, σ.opened p = none

/-- The buffer at `a` shares nothing with the buffer of an open call. -/
def ApartFromOpen (σ : Sys) (a : Addr) : Prop :=
  ∀ p n c, σ.opened p = some n → σ.calls n = some c →
    Apart MESSAGE_SIZE a c.buf

/-- The condition on a step. -/
def Proper (σ : Sys) : Event → Prop
  | .call p f partner m =>
      (type σ.mem m = PRINTX → IsPrint σ p m) ∧
        (f = SEND → InTable partner) ∧
        (f = RECEIVE → partner = INTERRUPT →
          ¬ ((σ.table INTERRUPT).procState.sending = true ∧
            (σ.table INTERRUPT).pidSendingto = p)) ∧
        ApartFromOpen σ (msgLa σ.table p m)
  | .hwInt _ => True
  | .user _ mem' => ∀ p n c, σ.opened p = some n → σ.calls n = some c →
      ∀ x, InBlock c.buf MESSAGE_SIZE x → mem' x = σ.mem x

/-- The SEND `n` and the RECEIVE `k` have exchanged the message of `n`, and
    nothing else. -/
structure Paired (calls : Nat → Option Call) (n k : Nat) (c d : Call) :
    Prop where
  send : calls n = some c ∧ c.function = SEND ∧ c.completed = true
  receive : calls k = some d ∧ d.function = RECEIVE ∧ d.completed = true
  addressed : d.caller = c.partner
  wanted : d.partner = c.caller ∨ d.partner = ANY
  sent : c.deliveries = [.copied (some k) d.buf c.msg]
  got : d.deliveries = [.copied (some n) d.buf c.msg]
  authentic : msgSource c.msg = BitVec.ofInt 32 c.caller

/-- The RECEIVE got the message `HW_INT`, and nothing else. -/
def Interrupted (d : Call) : Prop :=
  (d.partner = ANY ∨ d.partner = INTERRUPT) ∧
    ∃ b, d.deliveries = [.interrupt d.buf b] ∧
      msgSource b = BitVec.ofInt 32 INTERRUPT ∧ msgType b = HW_INT

/-- What a completed call has done. -/
def Done (calls : Nat → Option Call) (n : Nat) (c : Call) : Prop :=
  (c.function = SEND ∧ ∃ k d, Paired calls n k c d) ∨
    (c.function = RECEIVE ∧
      ((∃ j b, Paired calls j n b c) ∨ Interrupted c))

/-! ## Messages in memory -/

theorem msgType_readMsg (mem : Mem) (a : Addr) :
    msgType (readMsg mem a) = readU32 mem (a + 4) := by
  have hoff : ∀ i : Addr, mem (a + 4 + i) = mem (a + (4 + i)) := by
    intro i
    rw [BitVec.add_assoc]
  simp only [readU32, readBlock, hoff]
  rfl

/-- A message depends on its bytes. -/
theorem readMsg_congr {mem mem' : Mem} {a : Addr}
    (h : ∀ x, InBlock a MESSAGE_SIZE x → mem' x = mem x) :
    readMsg mem' a = readMsg mem a := by
  funext i
  exact readBlock_of_agree (by decide) h i.isLt

/-- A copy is the same message. -/
theorem readMsg_copy (mem : Mem) (dst src : Addr) :
    readMsg (copy mem dst src MESSAGE_SIZE) dst = readMsg mem src := by
  funext i
  exact readBlock_copy (by decide) i.isLt

/-- A word of the message lies in the message. -/
theorem inBlock_of_word {a x : Addr} {k : Nat} (hk : k + 4 ≤ MESSAGE_SIZE)
    (h : InBlock (a + BitVec.ofNat 32 k) 4 x) : InBlock a MESSAGE_SIZE x := by
  rw [MESSAGE_SIZE] at *
  obtain ⟨i, hi, rfl⟩ := (inBlock_offset (by decide)).mp h
  refine (inBlock_offset (by decide)).mpr ⟨k + i, by omega, ?_⟩
  rw [BitVec.add_assoc, BitVec.ofNat_add]

/-- The message of an interrupt is written over its own bytes. -/
theorem setInt_out {mem : Mem} {a x : Addr}
    (h : ¬ InBlock a MESSAGE_SIZE x) : setInt mem a x = mem x := by
  have h0 : ¬ InBlock a 4 x := by
    intro hx
    refine h (inBlock_of_word (k := 0) (by decide) ?_)
    rw [BitVec.add_zero]
    exact hx
  have h4 : ¬ InBlock (a + 4) 4 x :=
    fun hx => h (inBlock_of_word (k := 4) (by decide) hx)
  rw [setInt, writeU32_out h4, writeU32_out h0]

/-- It is from INTERRUPT. -/
theorem source_setInt (mem : Mem) (a : Addr) :
    readU32 (setInt mem a) a = BitVec.ofInt 32 INTERRUPT := by
  rw [setInt, ← readU32_writeU32 mem a (BitVec.ofInt 32 INTERRUPT)]
  refine readU32_congr (fun i hi => ?_)
  rw [readU32_writeU32]
  refine writeU32_out (fun hin => ?_)
  rw [InBlock] at hin
  have hlt := a.isLt
  simp only [BitVec.ofNat_eq_ofNat, BitVec.toNat_sub, BitVec.toNat_add,
    BitVec.toNat_ofNat] at hin
  omega

/-- And of type HW_INT. -/
theorem type_setInt (mem : Mem) (a : Addr) :
    readU32 (setInt mem a) (a + 4) = HW_INT :=
  readU32_writeU32 _ _ _

/-- A write of the message passing stays in its buffer. -/
theorem applyWrite_out {mem : Mem} {w : Write} {x dst : Addr}
    (hdst : match w with
      | .copyMsg _ _ d _ | .copyIntMsg _ d | .setIntMsg _ d => d = dst)
    (h : ¬ InBlock dst MESSAGE_SIZE x) : applyWrite mem w x = mem x := by
  cases w with
  | copyMsg r s d src => subst hdst; exact copy_out h
  | copyIntMsg r d => subst hdst; exact (setInt_out h).trans (fill_out h)
  | setIntMsg r d => subst hdst; exact setInt_out h

/-! ## What the table says about open calls -/

/-- An entry without its link and its interrupt flag. -/
def core (p : Proc) : Proc :=
  { p with qPendingProc := none, hasIntMsg := false }

/-- The call is the open call of its caller, who has not got anything yet. -/
structure Opened (σ : Sys) (p : Int) (n : Nat) (c : Call) : Prop where
  call : σ.calls n = some c
  inTable : InTable p
  caller : c.caller = p
  running : c.completed = false
  nothing : c.deliveries = []
  message : c.function = SEND →
    readMsg σ.mem c.buf = c.msg ∧ msgSource c.msg = BitVec.ofInt 32 p

/-- The caller is blocked in the call. -/
structure Blocked (T : Table) (c : Call) : Prop where
  buf : c.buf = msgLa T c.caller (T c.caller).pendingMsg
  state : (c.function = SEND ∧ (T c.caller).procState = SENDING ∧
      (T c.caller).pidSendingto = c.partner) ∨
    (c.function = RECEIVE ∧ (T c.caller).procState = RECEIVING ∧
      (T c.caller).pidRecvingfrom = c.partner)

/-- The record and the table agree.  The process `active` is inside the
    handler: its call is on record, but it has not been blocked yet. -/
structure Inv (σ : Sys) (active : Option Int) : Prop where
  flat : ∀ p, InTable p → p < NR_TASKS_NATIVE + NR_PROCS_NATIVE →
    gdtLdtToBaseAddr (σ.table p).ldtRw = 0
  links : ∀ p x, InTable p → (σ.table p).qPendingProc = some x → InTable x
  idle : ∀ p, InTable p → σ.opened p = none →
    (σ.table p).procState.sending = false ∧
      (σ.table p).procState.receiving = false
  busy : ∀ p n, σ.opened p = some n → ∃ c, Opened σ p n c ∧
    (active ≠ some p → Blocked σ.table c)
  apart : ∀ p q n k c d, σ.opened p = some n → σ.opened q = some k → p ≠ q →
    σ.calls n = some c → σ.calls k = some d → Apart MESSAGE_SIZE c.buf d.buf
  fresh : ∀ n, σ.next ≤ n → σ.calls n = none
  openOf : ∀ n c, σ.calls n = some c → c.completed = false →
    σ.opened c.caller = some n
  done : ∀ n c, σ.calls n = some c → c.completed = true → Done σ.calls n c

/-- Whether a call waits depends on the core of its entry. -/
theorem blocked_of_core {T T' : Table} {c : Call}
    (hcore : core (T' c.caller) = core (T c.caller)) (h : Blocked T c) :
    Blocked T' c := by
  simp only [core, Proc.mk.injEq] at hcore
  obtain ⟨-, hldt, hst, hpend, -, hfrom, hto, -⟩ := hcore
  refine ⟨?_, ?_⟩
  · rw [msgLa, hldt, hpend]
    exact h.buf
  · rw [hst, hto, hfrom]
    exact h.state

/-- Who is blocked in a call does not run. -/
theorem not_runnable {T : Table} {c : Call} (h : Blocked T c) :
    (T c.caller).procState ≠ RUNNABLE := by
  rcases h.state with ⟨-, hst, -⟩ | ⟨-, hst, -⟩ <;> rw [hst] <;> decide

/-- No two processes have the same call open. -/
theorem opened_inj {σ : Sys} {active : Option Int} (h : Inv σ active)
    {p q : Int} {n : Nat} (hp : σ.opened p = some n)
    (hq : σ.opened q = some n) : p = q := by
  obtain ⟨c, hc, -⟩ := h.busy p n hp
  obtain ⟨d, hd, -⟩ := h.busy q n hq
  have hcd : c = d := Option.some.inj (hc.call.symm.trans hd.call)
  rw [← hc.caller, hcd, hd.caller]

/-- A call that is not open gets no delivery. -/
theorem deliveriesTo_nil {opened : Int → Option Nat} {mem : Mem} {n : Nat}
    {w : Write} (h : ∀ p, opened p ≠ some n) :
    deliveriesTo opened mem n w = [] := by
  cases w <;> simp [deliveriesTo, h]

/-- A process that takes no part in a write. -/
def Write.spares (p : Int) : Write → Prop
  | .copyMsg r s _ _ => p ≠ r ∧ p ≠ s
  | .copyIntMsg r _ | .setIntMsg r _ => p ≠ r

/-- A write elsewhere delivers nothing. -/
theorem deliveriesTo_spared {σ : Sys} {active : Option Int} (h : Inv σ active)
    {mem : Mem} {n : Nat} {p : Int} {w : Write} (hp : σ.opened p = some n)
    (hw : Write.spares p w) : deliveriesTo σ.opened mem n w = [] := by
  have hne : ∀ q, p ≠ q → σ.opened q ≠ some n :=
    fun q hpq hq => hpq (opened_inj h hp hq)
  cases w with
  | copyMsg r s dst src =>
      simp [deliveriesTo, hne r hw.1, hne s hw.2]
  | copyIntMsg r dst | setIntMsg r dst =>
      simp [deliveriesTo, hne r hw]

/-- A completed call stays as it is. -/
theorem settle_completed {σ : Sys} {active : Option Int} (h : Inv σ active)
    (T : Table) (mem : Mem) (w : List Write) {n : Nat} {c : Call}
    (hc : σ.calls n = some c) (hdone : c.completed = true) :
    (σ.settle T mem w).calls n = some c := by
  have hno : ∀ p, σ.opened p ≠ some n := by
    intro p hp
    obtain ⟨d, hd, -⟩ := h.busy p n hp
    have hcd : c = d := Option.some.inj (hc.symm.trans hd.call)
    have hrun := hd.running
    rw [← hcd, hdone] at hrun
    cases hrun
  have hnil : w.flatMap (deliveriesTo σ.opened mem n) = [] := by
    rw [List.flatMap_eq_nil_iff]
    exact fun x _ => deliveriesTo_nil hno
  simp only [Sys.settle, hc, Option.map_some, settleCall, hnil, hdone,
    List.append_nil, Bool.true_or, Option.some.injEq]
  rw [← hdone]

/-- Pairs of completed calls stay paired. -/
theorem done_mono {calls calls' : Nat → Option Call}
    (hkeep : ∀ n c, calls n = some c → c.completed = true →
      calls' n = some c) {n : Nat} {c : Call} (h : Done calls n c) :
    Done calls' n c := by
  have hpair : ∀ {i j : Nat} {a b : Call}, Paired calls i j a b →
      Paired calls' i j a b := by
    intro i j a b hp
    exact { hp with
      send := ⟨hkeep i a hp.send.1 hp.send.2.2, hp.send.2⟩
      receive := ⟨hkeep j b hp.receive.1 hp.receive.2.2, hp.receive.2⟩ }
  rcases h with ⟨hf, k, d, hp⟩ | ⟨hf, ⟨j, b, hp⟩ | hint⟩
  · exact Or.inl ⟨hf, k, d, hpair hp⟩
  · exact Or.inr ⟨hf, Or.inl ⟨j, b, hpair hp⟩⟩
  · exact Or.inr ⟨hf, Or.inr hint⟩

/-! ## Opening and settling calls -/

/-- The memory of a state, exchanged. -/
def Sys.withMem (σ : Sys) (mem : Mem) : Sys := { σ with mem := mem }

section Enter

variable {σ : Sys} {c d : Call} {q : Int} {n : Nat}

/-- The call that has been entered is open. -/
theorem enter_opened : (σ.enter c).opened q = some n ↔
    q = c.caller ∧ n = σ.next ∨ q ≠ c.caller ∧ σ.opened q = some n := by
  show (if q = c.caller then some σ.next else σ.opened q) = some n ↔ _
  by_cases hq : q = c.caller
  · rw [if_pos hq, Option.some.injEq, eq_comm]
    exact ⟨fun hn => Or.inl ⟨hq, hn⟩, fun h => (h.resolve_right
      fun hne => hne.1 hq).2⟩
  · rw [if_neg hq]
    exact ⟨fun hn => Or.inr ⟨hq, hn⟩, fun h => (h.resolve_left
      fun heq => hq heq.1).2⟩

/-- And is the newest. -/
theorem enter_calls : (σ.enter c).calls n = some d ↔
    n = σ.next ∧ d = c ∨ n ≠ σ.next ∧ σ.calls n = some d := by
  show (if n = σ.next then some c else σ.calls n) = some d ↔ _
  by_cases hn : n = σ.next
  · rw [if_pos hn, Option.some.injEq, eq_comm]
    exact ⟨fun hd => Or.inl ⟨hn, hd⟩, fun h => (h.resolve_right
      fun hne => hne.1 hn).2⟩
  · rw [if_neg hn]
    exact ⟨fun hd => Or.inr ⟨hn, hd⟩, fun h => (h.resolve_left
      fun heq => hn heq.1).2⟩

/-- The stamp is the first word of the caller's message. -/
theorem stamped_out {p : Int} {m x : Addr}
    (hx : ¬ InBlock (msgLa σ.table p m) MESSAGE_SIZE x) :
    stamped σ p m x = σ.mem x := by
  refine writeU32_out (fun hin => hx (inBlock_of_word (k := 0) ?_ ?_))
  · decide
  · rw [BitVec.add_zero]
    exact hin

end Enter

/-- **STEP**: a runnable process opens a call. -/
theorem inv_enter {σ : Sys} (h : Inv σ none) (f partner : Int) {p : Int}
    {m : Addr} (hp : InTable p) (hrun : (σ.table p).procState = RUNNABLE)
    (hapart : ApartFromOpen σ (msgLa σ.table p m)) :
    Inv ((σ.enter (newCall σ p f partner m)).withMem (stamped σ p m))
      (some p) ∧ σ.opened p = none := by
  -- a process with an open call is blocked, and this one runs
  have hpnone : σ.opened p = none := by
    cases hop : σ.opened p with
    | none => rfl
    | some n =>
        obtain ⟨c, hc, hblk⟩ := h.busy p n hop
        have hcal := hc.caller
        refine absurd ?_ (not_runnable (hblk (by simp)))
        rw [hcal]
        exact hrun
  have hused : ∀ {n c}, σ.calls n = some c → n ≠ σ.next := by
    rintro n c hc rfl
    cases (h.fresh σ.next (Nat.le_refl _)).symm.trans hc
  have hcall : ∀ {n c}, σ.calls n = some c →
      (σ.enter (newCall σ p f partner m)).calls n = some c := fun hc =>
    enter_calls.mpr (Or.inr ⟨hused hc, hc⟩)
  -- an open call is the new one or one of before
  have hsplit : ∀ {q n c},
      (σ.enter (newCall σ p f partner m)).opened q = some n →
      (σ.enter (newCall σ p f partner m)).calls n = some c →
      q = p ∧ c.buf = msgLa σ.table p m ∨
        q ≠ p ∧ σ.opened q = some n ∧ σ.calls n = some c := by
    intro q n c hq hc
    rcases enter_opened.mp hq with ⟨hqp, rfl⟩ | ⟨hqp, hq'⟩
    · rcases enter_calls.mp hc with ⟨-, rfl⟩ | ⟨hn, -⟩
      · exact Or.inl ⟨hqp, rfl⟩
      · exact absurd rfl hn
    · obtain ⟨d, hd, -⟩ := h.busy q n hq'
      rcases enter_calls.mp hc with ⟨hn, -⟩ | ⟨-, hc'⟩
      · exact absurd hn (hused hd.call)
      · exact Or.inr ⟨hqp, hq', hc'⟩
  refine ⟨?_, hpnone⟩
  constructor
  case flat => exact h.flat
  case links => exact h.links
  case idle =>
    intro q hq hnone
    refine h.idle q hq ?_
    by_cases hqp : q = p
    · rw [hqp]
      exact hpnone
    · exact (if_neg hqp).symm.trans hnone
  case busy =>
    intro q n hq
    rcases enter_opened.mp hq with ⟨hqp, rfl⟩ | ⟨hqp, hq'⟩
    · obtain rfl : p = q := hqp.symm
      refine ⟨newCall σ p f partner m,
        ⟨enter_calls.mpr (Or.inl ⟨rfl, rfl⟩), hp, rfl, rfl, rfl, fun _ => ?_⟩,
        fun hne => absurd rfl hne⟩
      exact ⟨rfl, readU32_writeU32 _ _ _⟩
    · obtain ⟨c, hc, hblk⟩ := h.busy q n hq'
      refine ⟨c, ⟨hcall hc.call, hc.inTable, hc.caller, hc.running,
        hc.nothing, fun hf => ?_⟩, fun _ => hblk (by simp)⟩
      obtain ⟨hmsg, hsrc⟩ := hc.message hf
      refine ⟨?_, hsrc⟩
      rw [← hmsg]
      refine readMsg_congr (fun x hx => stamped_out (fun hx' => ?_))
      exact hapart q n c hq' hc.call x hx' hx
  case apart =>
    intro q r n k c d hq hr hqr hc hd
    rcases hsplit hq hc with ⟨hqp, hbuf⟩ | ⟨-, hq', hc'⟩
    · rcases hsplit hr hd with ⟨hrp, -⟩ | ⟨-, hr', hd'⟩
      · exact absurd (hqp.trans hrp.symm) hqr
      · rw [hbuf]
        exact hapart r k d hr' hd'
    · rcases hsplit hr hd with ⟨-, hbuf⟩ | ⟨-, hr', hd'⟩
      · rw [hbuf]
        exact apart_symm (hapart q n c hq' hc')
      · exact h.apart q r n k c d hq' hr' hqr hc' hd'
  case fresh =>
    intro n hn
    have hlt : σ.next + 1 ≤ n := hn
    exact (if_neg (by omega)).trans (h.fresh n (by omega))
  case openOf =>
    intro n c hc hrunning
    rcases enter_calls.mp hc with ⟨rfl, rfl⟩ | ⟨-, hc'⟩
    · exact enter_opened.mpr (Or.inl ⟨rfl, rfl⟩)
    · have hop := h.openOf n c hc' hrunning
      refine enter_opened.mpr (Or.inr ⟨fun heq => ?_, hop⟩)
      rw [heq] at hop
      cases hpnone.symm.trans hop
  case done =>
    -- calls that are over stay as they were
    intro n c hc hdone
    rcases enter_calls.mp hc with ⟨-, rfl⟩ | ⟨-, hc'⟩
    · cases hdone
    · exact done_mono (fun k d hk _ => hcall hk) (h.done n c hc' hdone)

/-- The record of a finishing call. -/
def finished (c : Call) (d : List Delivery) : Call :=
  { c with deliveries := d, completed := true }

/-- **STEP**: the processes in `fin` finish their calls, all others with an
    open call stay blocked in it. -/
theorem inv_settle {σ : Sys} {active : Option Int} (h : Inv σ active)
    {T : Table} {mem : Mem} {w : List Write} (fin : Int → Prop)
    (hflat : ∀ p, InTable p → p < NR_TASKS_NATIVE + NR_PROCS_NATIVE →
      gdtLdtToBaseAddr (T p).ldtRw = 0)
    (hlinks : ∀ p x, InTable p → (T p).qPendingProc = some x → InTable x)
    (hidle : ∀ p, InTable p → σ.opened p = none →
      (T p).procState.sending = false ∧ (T p).procState.receiving = false)
    (hfin : ∀ p, fin p → (T p).procState = RUNNABLE)
    (hblk : ∀ p n c, ¬ fin p → σ.opened p = some n → Opened σ p n c →
      Blocked T c ∧ ∀ x, InBlock c.buf MESSAGE_SIZE x →
        c.function = SEND → mem x = σ.mem x)
    (hw : ∀ p, ¬ fin p → ∀ x ∈ w, Write.spares p x)
    (hdone : ∀ p n c, fin p → σ.opened p = some n → Opened σ p n c →
      Done (σ.settle T mem w).calls n
        (finished c (w.flatMap (deliveriesTo σ.opened mem n)))) :
    Inv (σ.settle T mem w) none := by
  have hspare : ∀ p n c, ¬ fin p → σ.opened p = some n → Opened σ p n c →
      (σ.settle T mem w).calls n = some c := by
    intro p n c hp hop hc
    have hnil : w.flatMap (deliveriesTo σ.opened mem n) = [] := by
      rw [List.flatMap_eq_nil_iff]
      exact fun x hx => deliveriesTo_spared h hop (hw p hp x hx)
    have hnr := not_runnable (hblk p n c hp hop hc).1
    simp only [Sys.settle, hc.call, Option.map_some, settleCall, hnil,
      hc.running, List.append_nil, Bool.false_or, hnr, and_false,
      decide_false]
    rw [← hc.running]
  have hfinished : ∀ p n c, fin p → σ.opened p = some n → Opened σ p n c →
      (σ.settle T mem w).calls n =
        some (finished c (w.flatMap (deliveriesTo σ.opened mem n))) := by
    intro p n c hp hop hc
    have hr : (T c.caller).procState = RUNNABLE := by
      rw [hc.caller]
      exact hfin p hp
    have ho : σ.opened c.caller = some n := by
      rw [hc.caller]
      exact hop
    simp only [Sys.settle, hc.call, Option.map_some, settleCall, hc.nothing,
      List.nil_append, ho, hr, and_self, decide_true, Bool.or_true, finished]
  have hopen : ∀ p n, (σ.settle T mem w).opened p = some n →
      ¬ fin p ∧ σ.opened p = some n := by
    intro p n hn
    simp only [Sys.settle] at hn
    split at hn
    · cases hn
    · rename_i hnr
      exact ⟨fun hp => hnr (hfin p hp), hn⟩
  -- every call after the step was a call before it
  have hback : ∀ n c', (σ.settle T mem w).calls n = some c' →
      (∃ c, σ.calls n = some c ∧ c.completed = true ∧ c' = c) ∨
      (∃ p c, ¬ fin p ∧ σ.opened p = some n ∧ Opened σ p n c ∧ c' = c) ∨
      ∃ p c, fin p ∧ σ.opened p = some n ∧ Opened σ p n c ∧
        c' = finished c (w.flatMap (deliveriesTo σ.opened mem n)) := by
    intro n c' hc'
    cases hcn : σ.calls n with
    | none => simp [Sys.settle, hcn] at hc'
    | some c =>
        cases hcomp : c.completed with
        | true =>
            have hkeep := settle_completed h T mem w hcn hcomp
            exact Or.inl ⟨c, rfl, hcomp, Option.some.inj (hc'.symm.trans hkeep)⟩
        | false =>
            have hop := h.openOf n c hcn hcomp
            obtain ⟨d, hd, -⟩ := h.busy _ n hop
            obtain rfl : c = d := Option.some.inj (hcn.symm.trans hd.call)
            refine Or.inr ?_
            by_cases hf : fin c.caller
            · exact Or.inr ⟨c.caller, c, hf, hop, hd,
                Option.some.inj (hc'.symm.trans (hfinished _ n c hf hop hd))⟩
            · exact Or.inl ⟨c.caller, c, hf, hop, hd,
                Option.some.inj (hc'.symm.trans (hspare _ n c hf hop hd))⟩
  constructor
  case flat => exact hflat
  case links => exact hlinks
  case idle =>
    intro p hp hnone
    simp only [Sys.settle] at hnone
    split at hnone
    · rename_i hr
      simp [Sys.settle, hr, RUNNABLE]
    · exact hidle p hp hnone
  case busy =>
    intro p n hn
    obtain ⟨hf, hop⟩ := hopen p n hn
    obtain ⟨c, hc, -⟩ := h.busy p n hop
    obtain ⟨hb, hmem⟩ := hblk p n c hf hop hc
    refine ⟨c, ⟨hspare p n c hf hop hc, hc.inTable, hc.caller, hc.running,
      hc.nothing, fun hs => ?_⟩, fun _ => hb⟩
    obtain ⟨hmsg, hsrc⟩ := hc.message hs
    exact ⟨(readMsg_congr fun x hx => hmem x hx hs).trans hmsg, hsrc⟩
  case apart =>
    intro p q n k c d hp hq hpq hc hd
    obtain ⟨hfp, hop⟩ := hopen p n hp
    obtain ⟨hfq, hoq⟩ := hopen q k hq
    obtain ⟨c₀, hc₀, -⟩ := h.busy p n hop
    obtain ⟨d₀, hd₀, -⟩ := h.busy q k hoq
    obtain rfl := Option.some.inj (hc.symm.trans (hspare p n c₀ hfp hop hc₀))
    obtain rfl := Option.some.inj (hd.symm.trans (hspare q k d₀ hfq hoq hd₀))
    exact h.apart p q n k c d hop hoq hpq hc₀.call hd₀.call
  case fresh =>
    intro n hn
    have hnone := h.fresh n hn
    simp [Sys.settle, hnone]
  case openOf =>
    intro n c' hc' hrunning
    rcases hback n c' hc' with ⟨c, -, hcomp, rfl⟩ |
        ⟨p, c, hf, hop, hc, rfl⟩ | ⟨p, c, hf, hop, hc, rfl⟩
    · rw [hcomp] at hrunning
      cases hrunning
    · have hnr := not_runnable (hblk p n c' hf hop hc).1
      simp only [Sys.settle, hnr, if_false]
      rw [hc.caller]
      exact hop
    · cases hrunning
  case done =>
    intro n c' hc' hcomp'
    rcases hback n c' hc' with ⟨c, hc, hcomp, rfl⟩ |
        ⟨p, c, hf, hop, hc, rfl⟩ | ⟨p, c, hf, hop, hc, rfl⟩
    · exact done_mono (fun k d hk hd => settle_completed h T mem w hk hd)
        (h.done n c' hc hcomp)
    · rw [hc.running] at hcomp'
      cases hcomp'
    · exact hdone p n c hf hop hc

/-! ## What a kernel call changes -/

/-- The entries outside `touched` keep all but their link and interrupt flag,
    segments stay, and links stay in the table. -/
structure Frame (T T' : Table) (touched : Int → Prop) : Prop where
  core : ∀ p, ¬ touched p → core (T' p) = core (T p)
  ldt : ∀ p, (T' p).ldtRw = (T p).ldtRw
  links : (∀ p x, InTable p → (T p).qPendingProc = some x → InTable x) →
    ∀ p x, InTable p → (T' p).qPendingProc = some x → InTable x

theorem frame_mono {T T' : Table} {touched touched' : Int → Prop}
    (hsub : ∀ p, touched p → touched' p) (h : Frame T T' touched) :
    Frame T T' touched' :=
  { h with core := fun p hp => h.core p fun ht => hp (hsub p ht) }

/-- A change of one entry. -/
theorem frame_upd (T : Table) (p : Int) {f : Proc → Proc}
    (hldt : ∀ x, (f x).ldtRw = x.ldtRw)
    (hq : ∀ x, (f x).qPendingProc = x.qPendingProc) :
    Frame T (T.upd p f) (fun q => q = p) := by
  refine ⟨fun q hqp => by rw [upd_of_ne T f hqp], fun q => ?_,
    fun hl q x hin hx => ?_⟩
  · by_cases hqp : q = p
    · subst hqp; rw [upd_self, hldt]
    · rw [upd_of_ne T f hqp]
  · by_cases hqp : q = p
    · subst hqp
      rw [upd_self, hq] at hx
      exact hl q x hin hx
    · rw [upd_of_ne T f hqp] at hx
      exact hl q x hin hx

/-- A redirected link stays in the table when its target is there. -/
theorem frame_setLink {T T' : Table} {touched : Int → Prop} (p : Int)
    {q : Option Int} (h : Frame T T' touched)
    (hq : (∀ p x, InTable p → (T p).qPendingProc = some x → InTable x) →
      ∀ x, q = some x → InTable x) :
    Frame T (setLink T' p q) touched := by
  refine ⟨fun y hy => ?_, fun y => ?_, fun hl y x hin hx => ?_⟩
  · rw [setLink_frame]
    exact h.core y hy
  · rw [setLink_frame]
    exact h.ldt y
  · by_cases hyp : y = p
    · subst hyp
      rw [setLink_self] at hx
      exact hq hl x hx
    · rw [setLink_of_ne T' q hyp] at hx
      exact h.links hl y x hin hx

/-- And of one more. -/
theorem frame_upd_trans {T T' : Table} {touched : Int → Prop} (p : Int)
    {f : Proc → Proc} (h : Frame T T' touched)
    (hldt : ∀ x, (f x).ldtRw = x.ldtRw)
    (hq : ∀ x, (f x).qPendingProc = x.qPendingProc) :
    Frame T (T'.upd p f) (fun q => touched q ∨ q = p) := by
  have hupd := frame_upd T' p hldt hq
  refine ⟨fun y hy => ?_, fun y => (hupd.ldt y).trans (h.ldt y),
    fun hl => hupd.links (h.links hl)⟩
  rw [not_or] at hy
  exact (hupd.core y hy.2).trans (h.core y hy.1)

theorem frame_refl (T : Table) : Frame T T (fun _ => False) :=
  ⟨fun _ _ => rfl, fun _ => rfl, fun hl => hl⟩

/-- A SEND that waits changes the sender. -/
theorem frame_sentBlocked {T T' : Table} {s r : Int} {m : Addr}
    {w : List Write} (hs : InTable s) (h : SentBlocked T s r m T' w) :
    Frame T T' (fun q => q = s) := by
  obtain ⟨t, l, -, rfl⟩ := h.table
  have hupd : Frame T (T.upd s (blockedSending r m)) (fun q => q = s) :=
    frame_upd T s (fun _ => rfl) (fun _ => rfl)
  refine frame_setLink s (frame_setLink t hupd ?_) ?_
  · intro _ x hx
    exact Option.some.inj hx ▸ hs
  · intro _ x hx
    cases hx

/-- A RECEIVE from a sender changes that one. -/
theorem frame_rcvdFrom {fuel : Nat} {T T' : Table} {r src s x : Int}
    {m : Addr} {w : List Write} (hs : InTable s)
    (h : RcvdFrom fuel T r src m s x T' w) :
    Frame T T' (fun q => q = s) := by
  rw [h.table]
  have hset : Frame T (setLink (setLink T x (T s).qPendingProc) s none)
      (fun _ => False) := by
    refine frame_setLink s (frame_setLink x (frame_refl T) ?_) ?_
    · intro hl y hy
      exact hl s y hs hy
    · intro _ y hy
      cases hy
  refine frame_mono ?_ (frame_upd_trans s (f := released) hset ?_ ?_)
  · rintro p (hp | hp)
    · exact hp.elim
    · exact hp
  · intro _; rfl
  · intro _; rfl

/-! ## The three ways to settle -/

variable {σ : Sys} {active : Option Int} {T' : Table}

/-- The segments stay. -/
theorem flat_of_frame {touched : Int → Prop} (h : Inv σ active)
    (hframe : Frame σ.table T' touched) :
    ∀ p, InTable p → p < NR_TASKS_NATIVE + NR_PROCS_NATIVE →
      gdtLdtToBaseAddr (T' p).ldtRw = 0 := by
  intro p hp hlt
  rw [hframe.ldt p]
  exact h.flat p hp hlt

/-- Who has no open call stays out of the message passing. -/
theorem idle_of_frame {touched : Int → Prop} (h : Inv σ active)
    (hframe : Frame σ.table T' touched)
    (htouched : ∀ p, touched p → σ.opened p ≠ none) :
    ∀ p, InTable p → σ.opened p = none →
      (T' p).procState.sending = false ∧
        (T' p).procState.receiving = false := by
  intro p hp hnone
  have hcore := hframe.core p (fun ht => htouched p ht hnone)
  simp only [core, Proc.mk.injEq] at hcore
  rw [hcore.2.2.1]
  exact h.idle p hp hnone

/-- A call that waits still does. -/
theorem blocked_of_frame {touched : Int → Prop} (h : Inv σ active)
    (hframe : Frame σ.table T' touched) {p : Int} {n : Nat} {c : Call}
    (hp : ¬ touched p) (ha : active ≠ some p) (hop : σ.opened p = some n)
    (hc : Opened σ p n c) : Blocked T' c := by
  obtain ⟨d, hd, hblk⟩ := h.busy p n hop
  obtain rfl : c = d := Option.some.inj (hc.call.symm.trans hd.call)
  refine blocked_of_core ?_ (hblk ha)
  rw [hc.caller]
  exact hframe.core p hp

/-- **SETTLING NOTHING**: no message moves; a process inside the handler has
    been blocked. -/
theorem inv_quiet (h : Inv σ active)
    (hframe : Frame σ.table T' (fun p => active = some p))
    (hactive : ∀ p n c, active = some p → σ.opened p = some n →
      Opened σ p n c → Blocked T' c)
    (hopen : ∀ p, active = some p → σ.opened p ≠ none) :
    Inv (σ.settle T' σ.mem []) none := by
  refine inv_settle h (fun _ => False) (flat_of_frame h hframe)
    (hframe.links h.links) (idle_of_frame h hframe hopen) ?_ ?_ ?_ ?_
  · intro p hp; exact hp.elim
  · intro p n c _ hop hc
    refine ⟨?_, fun x _ _ => rfl⟩
    by_cases ha : active = some p
    · exact hactive p n c ha hop hc
    · exact blocked_of_frame h hframe ha ha hop hc
  · intro p _ x hx; cases hx
  · intro p n c hp; exact hp.elim

/-- **SETTLING A PAIR**: the message of the SEND of `s` goes into the buffer
    of the RECEIVE of `r`. -/
theorem inv_pair (h : Inv σ active) {s r : Int} {n k : Nat} {c d : Call}
    (hsr : s ≠ r) (hs : σ.opened s = some n) (hr : σ.opened r = some k)
    (hc : Opened σ s n c) (hd : Opened σ r k d)
    (hactive : active = none ∨ active = some s ∨ active = some r)
    (hframe : Frame σ.table T' (fun p => p = s ∨ p = r))
    (hrs : (T' s).procState = RUNNABLE) (hrr : (T' r).procState = RUNNABLE)
    (hsend : c.function = SEND) (hrcv : d.function = RECEIVE)
    (hto : c.partner = r) (hfrom : d.partner = s ∨ d.partner = ANY) :
    Inv (σ.settle T' (copy σ.mem d.buf c.buf MESSAGE_SIZE)
      [.copyMsg r s d.buf c.buf]) none := by
  have hnk : n ≠ k := by
    rintro rfl
    exact hsr (opened_inj h hs hr)
  have hread : readMsg (copy σ.mem d.buf c.buf MESSAGE_SIZE) d.buf = c.msg :=
    (readMsg_copy _ _ _).trans (hc.message hsend).1
  -- what the one write delivers to each of the two calls
  have hdn : [Write.copyMsg r s d.buf c.buf].flatMap (deliveriesTo σ.opened
      (copy σ.mem d.buf c.buf MESSAGE_SIZE) n) =
      [.copied (some k) d.buf c.msg] := by
    simp [deliveriesTo, hs, hr, hread, hnk.symm]
  have hdk : [Write.copyMsg r s d.buf c.buf].flatMap (deliveriesTo σ.opened
      (copy σ.mem d.buf c.buf MESSAGE_SIZE) k) =
      [.copied (some n) d.buf c.msg] := by
    simp [deliveriesTo, hs, hr, hread, hnk]
  have hcallN : (σ.settle T' (copy σ.mem d.buf c.buf MESSAGE_SIZE)
      [.copyMsg r s d.buf c.buf]).calls n =
      some (finished c [.copied (some k) d.buf c.msg]) := by
    simp only [Sys.settle, hc.call, Option.map_some, settleCall, hdn,
      hc.nothing, hc.caller, hs, hrs, finished, List.nil_append, and_self,
      decide_true, Bool.or_true]
  have hcallK : (σ.settle T' (copy σ.mem d.buf c.buf MESSAGE_SIZE)
      [.copyMsg r s d.buf c.buf]).calls k =
      some (finished d [.copied (some n) d.buf c.msg]) := by
    simp only [Sys.settle, hd.call, Option.map_some, settleCall, hdk,
      hd.nothing, hd.caller, hr, hrr, finished, List.nil_append, and_self,
      decide_true, Bool.or_true]
  -- both calls end with this write, so they are each other's partner
  have hpaired : Paired (σ.settle T' (copy σ.mem d.buf c.buf MESSAGE_SIZE)
      [.copyMsg r s d.buf c.buf]).calls n k
      (finished c [.copied (some k) d.buf c.msg])
      (finished d [.copied (some n) d.buf c.msg]) := by
    refine ⟨⟨hcallN, hsend, rfl⟩, ⟨hcallK, hrcv, rfl⟩,
      hd.caller.trans hto.symm, ?_, rfl, rfl, ?_⟩
    · rw [show (finished c _).caller = s from hc.caller]
      exact hfrom
    · rw [show (finished c _).caller = s from hc.caller]
      exact (hc.message hsend).2
  refine inv_settle h (fun p => p = s ∨ p = r) (flat_of_frame h hframe)
    (hframe.links h.links) (idle_of_frame h hframe ?_) ?_ ?_ ?_ ?_
  · rintro p (rfl | rfl)
    · rw [hs]; exact Option.some_ne_none n
    · rw [hr]; exact Option.some_ne_none k
  · rintro p (rfl | rfl)
    · exact hrs
    · exact hrr
  · -- an open call of anybody else: its buffer is apart from the receiver's
    intro p i b hp hop hb
    rw [not_or] at hp
    have ha : active ≠ some p := by
      rintro rfl
      rcases hactive with ha | ha | ha
      · cases ha
      · exact hp.1 (Option.some.inj ha)
      · exact hp.2 (Option.some.inj ha)
    refine ⟨blocked_of_frame h hframe (not_or.mpr hp) ha hop hb, ?_⟩
    intro x hx _
    refine copy_out (fun hin => ?_)
    exact h.apart r p k i d b hr hop (Ne.symm hp.2) hd.call hb.call x hin hx
  · intro p hp x hx
    rw [not_or] at hp
    obtain rfl := List.mem_singleton.mp hx
    exact ⟨hp.2, hp.1⟩
  · rintro p i b (rfl | rfl) hop hb
    · obtain rfl : n = i := Option.some.inj (hs.symm.trans hop)
      obtain rfl : c = b := Option.some.inj (hc.call.symm.trans hb.call)
      rw [hdn]
      exact Or.inl ⟨hsend, k, _, hpaired⟩
    · obtain rfl : k = i := Option.some.inj (hr.symm.trans hop)
      obtain rfl : d = b := Option.some.inj (hd.call.symm.trans hb.call)
      rw [hdk]
      exact Or.inr ⟨hrcv, Or.inl ⟨n, _, hpaired⟩⟩

/-- **SETTLING AN INTERRUPT**: the RECEIVE of `r` gets `HW_INT`. -/
theorem inv_interrupt (h : Inv σ active) {r : Int} {k : Nat} {d : Call}
    {w : Write} (hr : σ.opened r = some k) (hd : Opened σ r k d)
    (hactive : active = none ∨ active = some r)
    (hframe : Frame σ.table T' (fun p => p = r))
    (hrr : (T' r).procState = RUNNABLE) (hrcv : d.function = RECEIVE)
    (hfrom : d.partner = ANY ∨ d.partner = INTERRUPT)
    (hw : w = .copyIntMsg r d.buf ∨ w = .setIntMsg r d.buf) :
    Inv (σ.settle T' (applyWrite σ.mem w) [w]) none := by
  have hmsg : readU32 (applyWrite σ.mem w) d.buf =
        BitVec.ofInt 32 INTERRUPT ∧
      readU32 (applyWrite σ.mem w) (d.buf + 4) = HW_INT := by
    rcases hw with rfl | rfl <;>
      exact ⟨source_setInt _ _, type_setInt _ _⟩
  -- both ways to write the message deliver the same
  have hdk : [w].flatMap (deliveriesTo σ.opened (applyWrite σ.mem w) k) =
      [.interrupt d.buf (readMsg (applyWrite σ.mem w) d.buf)] := by
    rcases hw with rfl | rfl <;> simp [deliveriesTo, hr]
  refine inv_settle h (fun p => p = r) (flat_of_frame h hframe)
    (hframe.links h.links) (idle_of_frame h hframe ?_) ?_ ?_ ?_ ?_
  · rintro p rfl
    rw [hr]
    exact Option.some_ne_none k
  · rintro p rfl; exact hrr
  · -- an open call of anybody else
    intro p i b hp hop hb
    have ha : active ≠ some p := by
      rintro rfl
      rcases hactive with ha | ha
      · cases ha
      · exact hp (Option.some.inj ha)
    refine ⟨blocked_of_frame h hframe hp ha hop hb, fun x hx _ => ?_⟩
    have hout : ¬ InBlock d.buf MESSAGE_SIZE x := fun hin =>
      h.apart r p k i d b hr hop (Ne.symm hp) hd.call hb.call x hin hx
    rcases hw with rfl | rfl <;> exact applyWrite_out rfl hout
  · intro p hp x hx
    obtain rfl := List.mem_singleton.mp hx
    rcases hw with rfl | rfl <;> exact hp
  · rintro p i b rfl hop hb
    obtain rfl : k = i := Option.some.inj (hr.symm.trans hop)
    obtain rfl : d = b := Option.some.inj (hd.call.symm.trans hb.call)
    rw [hdk]
    exact Or.inr ⟨hrcv, Or.inr ⟨hfrom, _, rfl, hmsg.1,
      (msgType_readMsg _ _).trans hmsg.2⟩⟩

/-! ## Steps -/

/-- The open call of a process that the table shows SENDING. -/
theorem call_of_sending (h : Inv σ active) {p : Int} (hp : InTable p)
    (ha : active ≠ some p) (hst : (σ.table p).procState = SENDING) :
    ∃ n c, σ.opened p = some n ∧ Opened σ p n c ∧ c.function = SEND ∧
      c.partner = (σ.table p).pidSendingto ∧
      c.buf = msgLa σ.table p (σ.table p).pendingMsg := by
  cases hop : σ.opened p with
  | none =>
      have hidle := (h.idle p hp hop).1
      rw [hst] at hidle
      cases hidle
  | some n =>
      obtain ⟨c, hc, hblk⟩ := h.busy p n hop
      have hb := hblk ha
      have hbuf := hb.buf
      have hstate := hb.state
      rw [hc.caller] at hbuf hstate
      rcases hstate with ⟨hf, -, hto⟩ | ⟨-, hst', -⟩
      · exact ⟨n, c, rfl, hc, hf, hto.symm, hbuf⟩
      · rw [hst] at hst'
        cases hst'

/-- The open call of a process that the table shows RECEIVING. -/
theorem call_of_receiving (h : Inv σ active) {p : Int} (hp : InTable p)
    (ha : active ≠ some p) (hst : (σ.table p).procState = RECEIVING) :
    ∃ n c, σ.opened p = some n ∧ Opened σ p n c ∧ c.function = RECEIVE ∧
      c.partner = (σ.table p).pidRecvingfrom ∧
      c.buf = msgLa σ.table p (σ.table p).pendingMsg := by
  cases hop : σ.opened p with
  | none =>
      have hidle := (h.idle p hp hop).2
      rw [hst] at hidle
      cases hidle
  | some n =>
      obtain ⟨c, hc, hblk⟩ := h.busy p n hop
      have hb := hblk ha
      have hbuf := hb.buf
      have hstate := hb.state
      rw [hc.caller] at hbuf hstate
      rcases hstate with ⟨-, hst', -⟩ | ⟨hf, -, hfrom⟩
      · rw [hst] at hst'
        cases hst'
      · exact ⟨n, c, rfl, hc, hf, hfrom.symm, hbuf⟩

/-- Where a message is in memory. -/
theorem msgLa_of_procVa2la {T : Table} {p : Int} {va la : Addr}
    (h : procVa2la T p va = .ok la) : la = msgLa T p va :=
  (procVa2la_eq_ok.mp h).1

/-- **STEP**: SEND, by a process inside the handler with the record `c`. -/
theorem inv_send (h : Inv σ active) {fuel : Nat} {s r : Int} {m : Addr}
    {w : List Write} {n : Nat} {c : Call} (ha : active = some s)
    (hs : σ.opened s = some n) (hc : Opened σ s n c) (hr : InTable r)
    (hf : c.function = SEND) (hto : c.partner = r)
    (hbuf : c.buf = msgLa σ.table s m)
    (hcall : kernelMsgSend fuel σ.table s r m = .ok (T', w)) :
    Inv (σ.settle T' (w.foldl applyWrite σ.mem) w) none := by
  obtain ⟨hne, -, hdir | hblk⟩ := kernelMsgSend_cases hcall
  · -- the receiver waits
    have har : active ≠ some r := by
      rw [ha]
      exact fun heq => hne (Option.some.inj heq)
    obtain ⟨k, d, hop, hd, hfd, hfrom, hbufd⟩ :=
      call_of_receiving h hr har hdir.receiver
    obtain ⟨dst, src, hdst, hsrc, rfl⟩ := hdir.writes
    rw [msgLa_of_procVa2la hdst, msgLa_of_procVa2la hsrc, ← hbuf, ← hbufd]
    have hstate : (T' r).procState = RUNNABLE := by
      rw [hdir.table, upd_self, delivered, hdir.receiver]
      rfl
    refine inv_pair h hne hs hop hc hd (Or.inr (Or.inl ha)) ?_ ?_ hstate hf
      hfd hto ?_
    · rw [hdir.table]
      exact frame_mono (fun p hp => Or.inr hp)
        (frame_upd σ.table r (fun _ => rfl) (fun _ => rfl))
    · rw [hdir.table, upd_of_ne _ _ hne]
      exact hdir.idleSender
    · rw [hfrom]
      exact hdir.waiting.2
  · -- it does not: the caller blocks at the end of the queue
    rw [hblk.writes]
    have hframe := frame_sentBlocked hc.inTable hblk
    refine inv_quiet h (frame_mono ?_ hframe) ?_ ?_
    · rintro p rfl; exact ha
    · intro p i b hp hop hb
      obtain rfl : s = p := Option.some.inj (ha.symm.trans hp)
      obtain rfl : n = i := Option.some.inj (hs.symm.trans hop)
      obtain rfl : c = b := Option.some.inj (hc.call.symm.trans hb.call)
      have hrun : (σ.table s).procState = { RUNNABLE with
        sending := (σ.table s).procState.sending } := hblk.others
      have hldt := hframe.ldt s
      obtain ⟨t, l, -, rfl⟩ := hblk.table
      refine ⟨?_, Or.inl ⟨hf, ?_, ?_⟩⟩ <;> rw [hc.caller]
      · rw [msgLa, hldt, hbuf, setLink_pendingMsg, setLink_pendingMsg,
          upd_self]
        rfl
      · rw [setLink_procState, setLink_procState, upd_self, blockedSending,
          hrun]
        rfl
      · rw [setLink_pidSendingto, setLink_pidSendingto, upd_self]
        exact hto.symm
    · intro p hp
      obtain rfl : s = p := Option.some.inj (ha.symm.trans hp)
      rw [hs]
      exact Option.some_ne_none n

/-- **STEP**: RECEIVE, by a process inside the handler with the record `d`. -/
theorem inv_rcv (h : Inv σ active) {fuel : Nat} {r src : Int} {m : Addr}
    {w : List Write} {k : Nat} {d : Call} (ha : active = some r)
    (hr : σ.opened r = some k) (hd : Opened σ r k d) (hsource : IsSource src)
    (hfake : src = INTERRUPT →
      ¬ ((σ.table INTERRUPT).procState.sending = true ∧
        (σ.table INTERRUPT).pidSendingto = r))
    (hf : d.function = RECEIVE) (hfrom : d.partner = src)
    (hbuf : d.buf = msgLa σ.table r m)
    (hcall : kernelMsgRcv fuel σ.table r src m = .ok (T', w)) :
    Inv (σ.settle T' (w.foldl applyWrite σ.mem) w) none := by
  obtain ⟨-, hint | ⟨-, ⟨s, x, hrf⟩ | hblk⟩⟩ := kernelMsgRcv_cases hcall
  · -- an interrupt message
    obtain ⟨dst, hdst, rfl⟩ := hint.writes
    rw [msgLa_of_procVa2la hdst, ← hbuf]
    refine inv_interrupt h hr hd (Or.inr ha) ?_ ?_ hf ?_ (Or.inl rfl)
    · rw [hint.table]
      exact frame_upd σ.table r (fun _ => rfl) (fun _ => rfl)
    · rw [hint.table, upd_self]
      exact hint.idle
    · rw [hfrom]
      exact hint.source
  · -- a sender in the queue, or the one that was asked for
    have hsend : (σ.table s).procState.sending = true := by
      rw [hrf.sender]; rfl
    have hs : InTable s := by
      rcases hrf.choice with ⟨-, hq⟩ | ⟨hany, rfl, -⟩
      · exact h.links r s hd.inTable hq
      · rcases hsource with hin | heq | rfl
        · exact hin
        · exact absurd heq hany
        · exact absurd ⟨hsend, hrf.target⟩ (hfake rfl)
    have hne : s ≠ r := by
      rintro rfl
      rw [hrf.idle] at hsend
      cases hsend
    have has : active ≠ some s := by
      rw [ha]
      exact fun heq => hne (Option.some.inj heq).symm
    obtain ⟨n, c, hop, hc, hfc, hto, hbufc⟩ :=
      call_of_sending h hs has hrf.sender
    have hframe := frame_rcvdFrom hs hrf
    obtain ⟨dst, src', hdst, hsrc, rfl⟩ := hrf.writes
    have hla : ∀ p va, msgLa T' p va = msgLa σ.table p va := by
      intro p va
      rw [msgLa, msgLa, hframe.ldt]
    rw [msgLa_of_procVa2la hdst, msgLa_of_procVa2la hsrc, hla, hla, ← hbuf,
      ← hbufc]
    have hrun : (T' s).procState = RUNNABLE := by
      rw [hrf.table, upd_self, released, setLink_procState,
        setLink_procState, hrf.sender]
      rfl
    refine inv_pair h hne hop hr hc hd (Or.inr (Or.inr ha)) ?_ hrun ?_ hfc
      hf (hto.trans hrf.target) ?_
    · exact frame_mono (fun p hp => Or.inl hp) hframe
    · rw [hrf.table, upd_of_ne _ _ hne.symm, setLink_procState,
        setLink_procState]
      exact hrf.idle
    · rw [hfrom]
      rcases hrf.choice with ⟨hany, -⟩ | ⟨-, heq, -⟩
      · exact Or.inr hany
      · exact Or.inl heq
  · -- nobody has sent: the caller blocks, and its call stays open
    rw [hblk.writes]
    have hframe : Frame σ.table T' (fun p => p = r) := by
      rw [hblk.table]
      exact frame_upd σ.table r (fun _ => rfl) (fun _ => rfl)
    refine inv_quiet h (frame_mono ?_ hframe) ?_ ?_
    · rintro p rfl; exact ha
    · intro p i b hp hop hb
      obtain rfl : r = p := Option.some.inj (ha.symm.trans hp)
      obtain rfl : k = i := Option.some.inj (hr.symm.trans hop)
      obtain rfl : d = b := Option.some.inj (hd.call.symm.trans hb.call)
      have hothers : (σ.table r).procState = { RUNNABLE with
        receiving := (σ.table r).procState.receiving } := hblk.others
      refine ⟨?_, Or.inr ⟨hf, ?_, ?_⟩⟩ <;> rw [hd.caller, hblk.table]
      · rw [msgLa, upd_self, hbuf]
        rfl
      · rw [upd_self, blockedReceiving, hothers]
        rfl
      · rw [upd_self]
        exact hfrom.symm
    · intro p hp
      obtain rfl : r = p := Option.some.inj (ha.symm.trans hp)
      rw [hr]
      exact Option.some_ne_none k

/-- **STEP**: an interrupt for a task. -/
theorem inv_hwInt (h : Inv σ none) {p : Int} {w : List Write}
    (hp : p = TASK_TTY ∨ p = TASK_HD)
    (hcall : hwIntNotification σ.table p = .ok (T', w)) :
    Inv (σ.settle T' (w.foldl applyWrite σ.mem) w) none := by
  have hin : InTable p := by rcases hp with rfl | rfl <;> decide
  have hnat : p < NR_TASKS_NATIVE + NR_PROCS_NATIVE := by
    rcases hp with rfl | rfl <;> decide
  rcases hwIntNotification_cases hcall with
    ⟨hwait, hst, rfl, rfl⟩ | ⟨-, rfl, rfl⟩
  · obtain ⟨k, d, hop, hd, hfd, hfrom, hbuf⟩ :=
      call_of_receiving h hin (by simp) hst
    -- a task is flat, so the address in the table is the linear one
    have hpend : (σ.table p).pendingMsg = d.buf := by
      rw [hbuf, msgLa, h.flat p hin hnat]
      exact (BitVec.zero_add _).symm
    have hframe : Frame σ.table (σ.table.upd p interrupted)
        (fun q => q = p) :=
      frame_upd σ.table p (fun _ => rfl) (fun _ => rfl)
    rw [hpend]
    refine inv_interrupt h hop hd (Or.inl rfl) hframe ?_ hfd ?_ (Or.inr rfl)
    · rw [upd_self, interrupted, hst]
      rfl
    · rw [hfrom]
      exact hwait.2.symm
  · refine inv_quiet h ?_ ?_ ?_
    · have hupd := frame_upd σ.table p (f := fun x =>
        { x with hasIntMsg := true }) (fun _ => rfl) (fun _ => rfl)
      refine { hupd with core := fun q _ => ?_ }
      by_cases hq : q = p
      · subst hq; rw [upd_self]; rfl
      · rw [upd_of_ne _ _ hq]
    · intro q n c hq; cases hq
    · intro q hq; cases hq

/-- **STEP**: user code and memory around the table. -/
theorem inv_user (h : Inv σ none) {mem' : Mem}
    (hin : ∀ p, InTable p → T' p = σ.table p)
    (hmem : ∀ p n c, σ.opened p = some n → σ.calls n = some c →
      ∀ x, InBlock c.buf MESSAGE_SIZE x → mem' x = σ.mem x) :
    Inv { σ with table := T', mem := mem' } none := by
  refine ⟨?_, ?_, ?_, ?_, h.apart, h.fresh, h.openOf, h.done⟩
  · intro p hp hlt
    rw [show ({ σ with table := T', mem := mem' } : Sys).table p = _ from
      hin p hp]
    exact h.flat p hp hlt
  · intro p x hp hx
    rw [show ({ σ with table := T', mem := mem' } : Sys).table p = _ from
      hin p hp] at hx
    exact h.links p x hp hx
  · intro p hp hnone
    rw [show ({ σ with table := T', mem := mem' } : Sys).table p = _ from
      hin p hp]
    exact h.idle p hp hnone
  · intro p n hop
    obtain ⟨c, hc, hblk⟩ := h.busy p n hop
    refine ⟨c, ⟨hc.call, hc.inTable, hc.caller, hc.running, hc.nothing,
      fun hf => ?_⟩, fun _ => blocked_of_core ?_ (hblk (by simp))⟩
    · obtain ⟨hmsg, hsrc⟩ := hc.message hf
      exact ⟨(readMsg_congr (hmem p n c hop hc.call)).trans hmsg, hsrc⟩
    · rw [show ({ σ with table := T', mem := mem' } : Sys).table c.caller = _
        from hin c.caller (hc.caller ▸ hc.inTable)]

/-- **STEP**: every proper step keeps record and table in agreement. -/
theorem inv_step {σ σ' : Sys} {e : Event} (h : Inv σ none) (hg : Proper σ e)
    (hstep : Step σ e σ') : Inv σ' none := by
  cases hstep with
  | print _ _ hprint hcall =>
      rcases sysSendRcvHandler_cases hcall with ⟨-, htab, hmem, -⟩ | ⟨hne, -⟩
      · rw [htab, hmem]
        exact h
      · exact absurd hprint.2 hne
  | @call fuel _ p f partner m ret hp hrun hprint hcall =>
      obtain ⟨hnoprint, hpartner, hfake, hapart⟩ := hg
      obtain ⟨hent, hpnone⟩ := inv_enter h f partner hp hrun hapart
      have hopen : ((σ.enter (newCall σ p f partner m)).withMem
          (stamped σ p m)).opened p = some σ.next := by
        simp [Sys.withMem, Sys.enter, newCall]
      obtain ⟨c, hc, -⟩ := hent.busy p σ.next hopen
      have hcnew : newCall σ p f partner m = c := by
        have hcall := hc.call
        simpa [Sys.withMem, Sys.enter] using hcall
      subst hcnew
      rcases sysSendRcvHandler_cases hcall with ⟨ht, -⟩ | ⟨-, hsource, res,
        ⟨hf, hres⟩ | ⟨hf, hres⟩, rfl⟩
      · exact absurd (hnoprint ht) hprint
      · exact inv_send hent rfl hopen hc (hpartner hf) hf rfl rfl hres
      · exact inv_rcv hent rfl hopen hc hsource (hfake hf) hf rfl rfl hres
  | hwInt hp hcall => exact inv_hwInt h hp hcall
  | user hin => exact inv_user h hin hg

/-- Nothing has happened yet. -/
theorem inv_start {σ : Sys} (h : Start σ) : Inv σ none := by
  refine ⟨h.flat, ?_, ?_, ?_, ?_, fun n _ => h.calls n, ?_, ?_⟩
  · intro p x hp hx
    cases (h.idle p hp).2.2.symm.trans hx
  · intro p hp _
    exact ⟨(h.idle p hp).1, (h.idle p hp).2.1⟩
  · intro p n hop
    cases (h.opened p).symm.trans hop
  · intro p q n k c d hop
    cases (h.opened p).symm.trans hop
  · intro n c hc
    cases (h.calls n).symm.trans hc
  · intro n c hc
    cases (h.calls n).symm.trans hc

/-- **EXACTLY ONCE**: in a run of proper steps a completed SEND has had its
    message copied into the buffer of one RECEIVE of the addressee that asked
    for it, and a completed RECEIVE got one message: that of such a SEND, with
    the sender as source, or `HW_INT`. -/
theorem delivery_exactly_once {σ : Sys} (h : Reach Start Step Proper σ) :
    ∀ n c, σ.calls n = some c → c.completed = true → Done σ.calls n c :=
  (reach_invariant (fun σ => Inv σ none) (fun _ => inv_start)
    (fun _ _ _ hinv hg hstep => inv_step hinv hg hstep) h).done

/-- The kernel after boot, with a process that an earlier fork has put into
    the table. -/
def bootWith (child : Proc) (mem : Mem) : Sys where
  table := (initProcess 0 fun _ => freeProc).upd 9 fun _ => child
  mem := mem
  next := 0
  calls := fun _ => none
  opened := fun _ => none

/-- The state behind `init_process`, with a child. -/
theorem start_bootWith {child : Proc} (mem : Mem)
    (hsend : child.procState.sending = false)
    (hrcv : child.procState.receiving = false)
    (hq : child.qPendingProc = none) : Start (bootWith child mem) := by
  refine ⟨fun p hp => ?_, fun p hp hlt => ?_, fun _ => rfl, fun _ => rfl⟩
  · by_cases h9 : p = 9
    · subst h9
      exact ⟨hsend, hrcv, hq⟩
    · have htab : (bootWith child mem).table p =
        initProcess 0 (fun _ => freeProc) p :=
        upd_of_ne (initProcess 0 fun _ => freeProc) (fun _ => child) h9
      rw [htab]
      obtain ⟨hst, hlink, -⟩ := initProcess_idle 0 (fun _ => freeProc) hp
      rcases hst with hst | hst <;> rw [hst] <;> exact ⟨rfl, rfl, hlink⟩
  · have h9 : p ≠ 9 := by
      rintro rfl
      exact absurd hlt (by decide)
    have htab : (bootWith child mem).table p =
        initProcess 0 (fun _ => freeProc) p :=
        upd_of_ne (initProcess 0 fun _ => freeProc) (fun _ => child) h9
    rw [htab]
    exact initProcess_flat 0 _ hp hlt

/-- A forked process sends to INIT while `PRINTX` lies at the flat address of
    its message: the SEND completes and nothing has been copied. -/
theorem delivery_lost :
    ∃ σ, Reach Start Step free σ ∧ ∃ n c, σ.calls n = some c ∧
      c.function = SEND ∧ c.completed = true ∧ c.deliveries = [] ∧
      ¬ Done σ.calls n c := by
  let child := nativeProc (makeGdtDesc 0xA00000 0xFF 0)
    (makeGdtDesc 0xA00000 0xFF 0)
  let σ₀ := bootWith child (stale 0x1000 14 0)
  have hstart : Start σ₀ := start_bootWith _ rfl rfl rfl
  have hprint : ¬ IsPrint σ₀ 9 0x1000 := by decide
  have hcall : sysSendRcvHandler 1 0 σ₀.table σ₀.mem SEND 5 0x1000 9 =
      .ok ⟨σ₀.table, σ₀.mem, [], some 0xA00000⟩ := by
    refine sysSendRcvHandler_printx (type_stale _ _ _) ?_
    rw [procVa2la_eq_ok]
    exact ⟨by decide, fun hlt => absurd hlt (by decide)⟩
  have hstep := Step.call (by decide) rfl hprint hcall
  refine ⟨_, .next (.start hstart) trivial hstep, 0,
    finished (newCall σ₀ 9 SEND 5 0x1000) [], rfl, rfl, rfl, rfl, ?_⟩
  rintro (⟨-, k, d, hp⟩ | ⟨hf, -⟩)
  · cases hp.sent
  · cases hf

/-- A call between entries of the table that the kernel carries out. -/
theorem step_call {σ : Sys} {fuel : Nat} {p f partner : Int} {m la : Addr}
    {res : Table × List Write} (hp : InTable p)
    (hrun : (σ.table p).procState = RUNNABLE)
    (ht : type σ.mem m ≠ PRINTX) (hin : InTable partner)
    (hla : procVa2la σ.table p m = .ok la)
    (hne : (BitVec.ofInt 32 p).toInt ≠ partner)
    (hres : (f = SEND ∧ kernelMsgSend fuel σ.table p partner m = .ok res) ∨
      (f = RECEIVE ∧ kernelMsgRcv fuel σ.table p partner m = .ok res)) :
    Step σ (.call p f partner m) ((σ.enter (newCall σ p f partner m)).settle
      res.1 (res.2.foldl applyWrite (stamped σ p m)) res.2) := by
  have hcall := sysSendRcvHandler_ipc ht (Or.inl hin) hla hne hres
  rw [msgLa_of_procVa2la hla] at hcall
  exact .call hp hrun (fun hprint => ht hprint.2) hcall

/-- A call that is proper. -/
theorem proper_call {σ : Sys} {p f partner : Int} {m : Addr}
    (ht : type σ.mem m ≠ PRINTX) (hin : InTable partner)
    (hapart : ApartFromOpen σ (msgLa σ.table p m)) :
    Proper σ (.call p f partner m) := by
  refine ⟨fun h => absurd h ht, fun _ => hin, fun _ heq => ?_, hapart⟩
  subst heq
  exact absurd hin (by decide)

/-- INIT receives from process 6, which then sends. -/
theorem delivery_exactly_once_direct :
    ∃ σ : Sys, (∃ c, σ.calls 0 = some c ∧ c.completed = true) ∧
      (∃ c, σ.calls 1 = some c ∧ c.completed = true) ∧
      ∀ n c, σ.calls n = some c → c.completed = true → Done σ.calls n c := by
  let σ₀ := bootWith freeProc fun _ => 0
  have hstart : Start σ₀ := start_bootWith _ rfl rfl rfl
  -- INIT blocks
  let T₁ := σ₀.table.upd 5 (blockedReceiving 6 0x1000)
  have hrcv : kernelMsgRcv 1 σ₀.table 5 6 0x1000 = .ok (T₁, []) := rfl
  have hflat : ∀ p, InTable p → p < 9 → ∀ m,
      procVa2la σ₀.table p m = .ok m := by
    intro p hp hlt m
    rw [procVa2la_eq_ok, hstart.flat p hp hlt]
    exact ⟨(BitVec.zero_add m).symm, fun _ => rfl⟩
  let c₀ := newCall σ₀ 5 RECEIVE 6 0x1000
  let σ₁ := (σ₀.enter c₀).settle T₁ (stamped σ₀ 5 0x1000) []
  have hstep₁ : Step σ₀ (.call 5 RECEIVE 6 0x1000) σ₁ :=
    step_call (by decide) rfl (by decide) (by decide)
      (hflat 5 (by decide) (by decide) 0x1000) (by decide)
      (Or.inr ⟨rfl, hrcv⟩)
  have hproper₁ : Proper σ₀ (.call 5 RECEIVE 6 0x1000) := by
    refine proper_call (by decide) (by decide) ?_
    intro p n c hop
    cases hop
  -- process 6 sends
  let w := Write.copyMsg 5 6 0x1000 0x2000
  let T₂ := T₁.upd 5 delivered
  have hsend : kernelMsgSend 1 T₁ 6 5 0x2000 = .ok (T₂, [w]) := by
    have hwait : IsWaitingFor T₁ 5 6 := by decide
    have hdl : checkDeadlock 1 T₁ 6 5 = .ok false := rfl
    have hdst : procVa2la T₁ 5 0x1000 = .ok 0x1000 :=
      hflat 5 (by decide) (by decide) 0x1000
    have hsrc : procVa2la T₁ 6 0x2000 = .ok 0x2000 :=
      hflat 6 (by decide) (by decide) 0x2000
    have hpre : assertMultiple T₁ 0 5 0x2000 1 = .ok () := rfl
    have hpost : assertMultiple T₂ 6 5 0 2 = .ok () := rfl
    unfold kernelMsgSend
    simp only [bind_eq_ok, assert_eq_ok, exists_const]
    refine ⟨by decide, false, hdl, ?_⟩
    simp only [Bool.false_eq_true, if_false, if_pos hwait, bind_eq_ok]
    exact ⟨(), hpre, _, hdst, _, hsrc, (), rfl, (), hpost, rfl⟩
  let c₁ := newCall σ₁ 6 SEND 5 0x2000
  let σ₂ := (σ₁.enter c₁).settle T₂ (applyWrite (stamped σ₁ 6 0x2000) w) [w]
  have htype : type σ₁.mem 0x2000 ≠ PRINTX := by decide +kernel
  have hla : procVa2la σ₁.table 6 0x2000 = .ok 0x2000 :=
    hflat 6 (by decide) (by decide) 0x2000
  have hstep₂ : Step σ₁ (.call 6 SEND 5 0x2000) σ₂ :=
    step_call (by decide) (by decide) htype (by decide) hla (by decide)
      (Or.inl ⟨rfl, hsend⟩)
  have hproper₂ : Proper σ₁ (.call 6 SEND 5 0x2000) := by
    refine proper_call htype (by decide) ?_
    intro p n c hop hc
    have hn : n = 0 := by
      have hop' : (if (T₁ p).procState = RUNNABLE then none
        else if p = 5 then some 0 else none) = some n := hop
      split_ifs at hop'
      exact (Option.some.inj hop').symm
    subst hn
    have hbuf : c.buf = 0x1000 := by
      rw [← Option.some.inj hc]
      exact (msgLa_of_procVa2la (hflat 5 (by decide) (by decide) _)).symm
    rw [hbuf, ← msgLa_of_procVa2la hla]
    intro x hx hx'
    rw [InBlock, MESSAGE_SIZE] at hx hx'
    have hlt := x.isLt
    simp only [BitVec.ofNat_eq_ofNat, BitVec.toNat_sub,
      BitVec.toNat_ofNat] at hx hx'
    omega
  have hreach := Reach.next (.next (.start hstart) hproper₁ hstep₁) hproper₂
    hstep₂
  exact ⟨σ₂, ⟨_, rfl, by decide⟩, ⟨_, rfl, by decide⟩,
    delivery_exactly_once hreach⟩

end KosDelivery
