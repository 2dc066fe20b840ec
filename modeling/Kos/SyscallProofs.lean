import Kos.IpcProofs

/-! # The system call handler

    `sys_send_rcv_handler` over a byte memory.  The message is 48 bytes:
    `source` at 0, `type` at 4, `BUF` (`u.m3.m3p2`) at 44.

    The handler stamps `source` at the linear address of the message but reads
    `type` and `BUF` at the address as the caller gave it.  Whether the call
    is decided by the caller's own message is therefore a matter of the base of
    his data segment (`callerDecides_iff`). -/

namespace KosSyscall

open FlatMemory KosKernel KosIpc

/-! ## The message -/

/-- The bytes of a message. -/
def MESSAGE_SIZE : Nat := 48

/-- `enum msg_type` -/
def HW_INT : BitVec 32 := 1

/-- The type that is printed at once. -/
def PRINTX : BitVec 32 := 14

/-- The functions of a system call. -/
def SEND : Int := 1
def RECEIVE : Int := 2

/-- `m->source` -/
def source (mem : Mem) (m : Addr) : BitVec 32 := readU32 mem m

/-- `m->type` -/
def type (mem : Mem) (m : Addr) : BitVec 32 := readU32 mem (m + 4)

/-- `m->BUF` -/
def buf (mem : Mem) (m : Addr) : Addr := readU32 mem (m + 44)

/-- Source `INTERRUPT` and type `HW_INT`, in place. -/
def setInt (mem : Mem) (m : Addr) : Mem :=
  writeU32 (writeU32 mem m (BitVec.ofInt 32 INTERRUPT)) (m + 4) HW_INT

/-- The effect of a write of the message passing. -/
def applyWrite (mem : Mem) : Write → Mem
  | .copyMsg _ _ dst src => copy mem dst src MESSAGE_SIZE
  | .copyIntMsg _ dst => setInt (fill mem dst 0 MESSAGE_SIZE) dst
  | .setIntMsg _ dst => setInt mem dst

/-! ## The handler -/

/-- What the handler decides to do. -/
inductive Branch where
  | printx (buf : Addr)
  | send
  | receive
  | invalid
  deriving DecidableEq, Repr

/-- The decision: `PRINTX` is intercepted first. -/
def handlerBranch (mem : Mem) (function : Int) (m : Addr) : Branch :=
  if type mem m = PRINTX then .printx (buf mem m)
  else if function = SEND then .send
  else if function = RECEIVE then .receive
  else .invalid

/-- The linear address `sys_printx` prints from; `nested_int` is not negative
    in a system call. -/
def sysPrintx (nestedInt : Nat) (T : Table) (caller : Int) (s : Addr) :
    Except Halt Addr :=
  if nestedInt = 0 then procVa2la T caller s else pure s

/-- The checks and the assignment to `msg_la->source`. -/
def stampSource (nestedInt : Nat) (T : Table) (mem : Mem)
    (pidSenderReceiver : Int) (m : Addr) (caller : Int) :
    Except Halt Mem := do
  assert (nestedInt = 0)
  assert (InTable pidSenderReceiver ∨ pidSenderReceiver = ANY ∨
    pidSenderReceiver = INTERRUPT)
  let msgLa ← procVa2la T caller m
  let mem := writeU32 mem msgLa (BitVec.ofInt 32 caller)
  assert ((source mem msgLa).toInt ≠ pidSenderReceiver)
  pure mem

/-- What a call leaves behind. -/
structure Returned where
  table : Table
  mem : Mem
  writes : List Write
  printed : Option Addr

/-- The table and the writes of the message passing, with the memory. -/
def afterIpc (mem : Mem) (res : Table × List Write) : Returned where
  table := res.1
  mem := res.2.foldl applyWrite mem
  writes := res.2
  printed := none

/-- `sys_send_rcv_handler`. -/
def sysSendRcvHandler (fuel nestedInt : Nat) (T : Table) (mem : Mem)
    (function pidSenderReceiver : Int) (m : Addr) (caller : Int) :
    Except Halt Returned :=
  match handlerBranch mem function m with
  | .printx buf => do
      let p ← sysPrintx nestedInt T caller buf
      pure { table := T, mem := mem, writes := [], printed := some p }
  | .send => do
      let mem ← stampSource nestedInt T mem pidSenderReceiver m caller
      let res ← kernelMsgSend fuel T caller pidSenderReceiver m
      pure (afterIpc mem res)
  | .receive => do
      let mem ← stampSource nestedInt T mem pidSenderReceiver m caller
      let res ← kernelMsgRcv fuel T caller pidSenderReceiver m
      pure (afterIpc mem res)
  | .invalid => do
      let _ ← stampSource nestedInt T mem pidSenderReceiver m caller
      .error .panic

theorem stampSource_eq_ok {nestedInt : Nat} {T : Table} {mem mem' : Mem}
    {partner : Int} {m : Addr} {caller : Int}
    (h : stampSource nestedInt T mem partner m caller = .ok mem') :
    IsSource partner ∧
      mem' = writeU32 mem (gdtLdtToBaseAddr (T caller).ldtRw + m)
        (BitVec.ofInt 32 caller) := by
  simp only [stampSource, bind_eq_ok, assert_eq_ok, exists_const, pure_eq_ok,
    procVa2la_eq_ok] at h
  obtain ⟨-, hsrc, la, ⟨rfl, -⟩, -, rfl⟩ := h
  exact ⟨hsrc, rfl⟩

/-- **`sys_send_rcv_handler`, inverted**: a print, or a SEND or RECEIVE with
    the caller stamped into the message. -/
theorem sysSendRcvHandler_cases {fuel nestedInt : Nat} {T : Table} {mem : Mem}
    {f partner caller : Int} {m : Addr} {ret : Returned}
    (h : sysSendRcvHandler fuel nestedInt T mem f partner m caller = .ok ret) :
    (type mem m = PRINTX ∧ ret.table = T ∧ ret.mem = mem ∧ ret.writes = []) ∨
      (type mem m ≠ PRINTX ∧ IsSource partner ∧ ∃ res,
        ((f = SEND ∧ kernelMsgSend fuel T caller partner m = .ok res) ∨
          (f = RECEIVE ∧ kernelMsgRcv fuel T caller partner m = .ok res)) ∧
        ret = afterIpc (writeU32 mem (gdtLdtToBaseAddr (T caller).ldtRw + m)
          (BitVec.ofInt 32 caller)) res) := by
  unfold sysSendRcvHandler handlerBranch at h
  by_cases ht : type mem m = PRINTX
  · refine Or.inl ⟨ht, ?_⟩
    simp only [if_pos ht, bind_eq_ok, pure_eq_ok] at h
    obtain ⟨p, -, rfl⟩ := h
    exact ⟨rfl, rfl, rfl⟩
  · refine Or.inr ⟨ht, ?_⟩
    rw [if_neg ht] at h
    by_cases hs : f = SEND
    · simp only [if_pos hs, bind_eq_ok, pure_eq_ok] at h
      obtain ⟨mem', hst, res, hres, rfl⟩ := h
      obtain ⟨hsrc, rfl⟩ := stampSource_eq_ok hst
      exact ⟨hsrc, res, Or.inl ⟨hs, hres⟩, rfl⟩
    · rw [if_neg hs] at h
      by_cases hr : f = RECEIVE
      · simp only [if_pos hr, bind_eq_ok, pure_eq_ok] at h
        obtain ⟨mem', hst, res, hres, rfl⟩ := h
        obtain ⟨hsrc, rfl⟩ := stampSource_eq_ok hst
        exact ⟨hsrc, res, Or.inr ⟨hr, hres⟩, rfl⟩
      · simp only [if_neg hr, bind_eq_ok, reduceCtorEq, and_false,
          exists_false] at h

/-- A message of type `PRINTX` at the flat address is printed. -/
theorem sysSendRcvHandler_printx {fuel : Nat} {T : Table} {mem : Mem}
    {f partner caller : Int} {m p : Addr} (ht : type mem m = PRINTX)
    (hp : procVa2la T caller (buf mem m) = .ok p) :
    sysSendRcvHandler fuel 0 T mem f partner m caller =
      .ok { table := T, mem := mem, writes := [], printed := some p } := by
  unfold sysSendRcvHandler handlerBranch
  rw [if_pos ht]
  simp only [bind_eq_ok, pure_eq_ok, sysPrintx, if_true]
  exact ⟨p, hp, rfl⟩

/-- Any other message is stamped and handed to the message passing. -/
theorem sysSendRcvHandler_ipc {fuel : Nat} {T : Table} {mem : Mem}
    {f partner caller : Int} {m la : Addr} {res : Table × List Write}
    (ht : type mem m ≠ PRINTX) (hsrc : IsSource partner)
    (hla : procVa2la T caller m = .ok la)
    (hne : (BitVec.ofInt 32 caller).toInt ≠ partner)
    (hres : (f = SEND ∧ kernelMsgSend fuel T caller partner m = .ok res) ∨
      (f = RECEIVE ∧ kernelMsgRcv fuel T caller partner m = .ok res)) :
    sysSendRcvHandler fuel 0 T mem f partner m caller =
      .ok (afterIpc (writeU32 mem la (BitVec.ofInt 32 caller)) res) := by
  have hstamp : stampSource 0 T mem partner m caller =
      .ok (writeU32 mem la (BitVec.ofInt 32 caller)) := by
    simp only [stampSource, bind_eq_ok, assert_eq_ok, exists_const,
      pure_eq_ok]
    refine ⟨trivial, hsrc, la, hla, ?_, rfl⟩
    rw [source, readU32_writeU32]
    exact hne
  unfold sysSendRcvHandler handlerBranch
  rw [if_neg ht]
  rcases hres with ⟨rfl, hres⟩ | ⟨rfl, hres⟩
  · rw [if_pos rfl]
    simp only [bind_eq_ok, pure_eq_ok]
    exact ⟨_, hstamp, res, hres, rfl⟩
  · rw [if_neg (by decide), if_pos rfl]
    simp only [bind_eq_ok, pure_eq_ok]
    exact ⟨_, hstamp, res, hres, rfl⟩

/-! ## Who decides a call -/

/-- The call of `pid` with the message `m` is decided by the message: memories
    that agree on it lead to the same branch and, when it prints, the same
    buffer. -/
def CallerDecides (T : Table) (pid : Int) (m : Addr) : Prop :=
  ∀ la, procVa2la T pid m = .ok la → ∀ (mem mem' : Mem) (function : Int),
    (∀ x, InBlock la MESSAGE_SIZE x → mem' x = mem x) →
    handlerBranch mem' function m = handlerBranch mem function m

/-- The branch reads two words. -/
theorem handlerBranch_congr {mem mem' : Mem} {m : Addr} (function : Int)
    (ht : type mem' m = type mem m) (hb : buf mem' m = buf mem m) :
    handlerBranch mem' function m = handlerBranch mem function m := by
  rw [handlerBranch, handlerBranch, ht, hb]

/-- A word of the message at the flat address lies in the message of a caller
    whose base does not exceed the word's offset. -/
theorem readU32_of_small_base {mem mem' : Mem} {base m : Addr} {k : Nat}
    (hbase : base.toNat ≤ k) (hk : k + 4 ≤ MESSAGE_SIZE)
    (h : ∀ x, InBlock (base + m) MESSAGE_SIZE x → mem' x = mem x) :
    readU32 mem' (m + BitVec.ofNat 32 k) =
      readU32 mem (m + BitVec.ofNat 32 k) := by
  rw [MESSAGE_SIZE] at hk
  refine readU32_congr (fun i hi => h _ ?_)
  refine (inBlock_offset (by decide)).mpr
    ⟨k + i - base.toNat, by rw [MESSAGE_SIZE]; omega, ?_⟩
  apply BitVec.eq_of_toNat_eq
  simp only [BitVec.toNat_add, BitVec.toNat_ofNat]
  have hlt := base.isLt
  have hlt' := m.isLt
  omega

/-- Sufficient: the base is at most the offset of `type`. -/
theorem callerDecides_of_base {T : Table} {pid : Int} {m : Addr}
    (h : (gdtLdtToBaseAddr (T pid).ldtRw).toNat ≤ 4) :
    CallerDecides T pid m := by
  intro la hla mem mem' function hag
  rw [procVa2la_eq_ok] at hla
  rw [hla.1] at hag
  exact handlerBranch_congr function
    (readU32_of_small_base h (by decide) hag)
    (readU32_of_small_base (Nat.le_trans h (by decide)) (by decide) hag)

/-- A byte of the flat message that is not in the caller's message. -/
theorem not_inBlock_of_base {base m : Addr} {k : Nat} (hk : k < base.toNat)
    (hfar : base.toNat + MESSAGE_SIZE ≤ 4294967296 + k) :
    ¬ InBlock (base + m) MESSAGE_SIZE (m + BitVec.ofNat 32 k) := by
  rw [InBlock, MESSAGE_SIZE] at *
  have hlt := base.isLt
  have hlt' := m.isLt
  simp only [BitVec.toNat_sub, BitVec.toNat_add, BitVec.toNat_ofNat]
  omega

/-- Zeros, but for the low byte `t` of `type` and the high byte `b` of `BUF`
    at the flat address. -/
def stale (m : Addr) (t b : Byte) : Mem := fun x =>
  if x = m + 4 then t else if x = m + 47 then b else 0

theorem stale_offset (m i : Addr) (t b : Byte) :
    stale m t b (m + i) = if i = 4#32 then t else if i = 47#32 then b else 0 := by
  simp [stale]

theorem type_stale (m : Addr) (t b : Byte) :
    type (stale m t b) m = 0#8 ++ 0#8 ++ 0#8 ++ t := by
  simp only [type, readU32, readBlock, BitVec.add_assoc, stale_offset]
  rfl

theorem buf_stale (m : Addr) (t b : Byte) :
    buf (stale m t b) m = b ++ 0#8 ++ 0#8 ++ 0#8 := by
  simp only [buf, readU32, readBlock, BitVec.add_assoc, stale_offset]
  rfl

/-- Changing `b` or `t` in `stale` changes one byte. -/
theorem stale_agree {m x : Addr} {t b t' b' : Byte}
    (ht : t = t' ∨ x ≠ m + 4) (hb : b = b' ∨ x ≠ m + 47) :
    stale m t' b' x = stale m t b x := by
  unfold stale
  split
  · rcases ht with rfl | hx
    · rfl
    · contradiction
  · split
    · rcases hb with rfl | hx
      · rfl
      · contradiction
    · rfl

/-- Necessary for a forked process: with a larger base stale bytes at the flat
    address change the branch or the buffer. -/
theorem not_callerDecides {T : Table} {pid : Int} (m : Addr) (hpid : 9 ≤ pid)
    (h : 4 < (gdtLdtToBaseAddr (T pid).ldtRw).toNat) :
    ¬ CallerDecides T pid m := by
  intro hdec
  have hla : procVa2la T pid m =
      .ok (gdtLdtToBaseAddr (T pid).ldtRw + m) := by
    rw [procVa2la_eq_ok]
    refine ⟨rfl, fun hlt => ?_⟩
    rw [NR_TASKS_NATIVE, NR_PROCS_NATIVE] at hlt
    omega
  have hag := hdec _ hla
  generalize gdtLdtToBaseAddr (T pid).ldtRw = base at h hag
  by_cases hbase : base.toNat ≤ 47
  · -- the low byte of `type` is foreign
    have hout : ¬ InBlock (base + m) MESSAGE_SIZE (m + 4) :=
      not_inBlock_of_base (k := 4) h (by rw [MESSAGE_SIZE]; omega)
    have hbad := hag (stale m 14 0) (stale m 0 0) SEND
      (fun x hx => stale_agree (Or.inr fun heq => hout (heq ▸ hx))
        (Or.inl rfl))
    rw [handlerBranch, handlerBranch, type_stale, type_stale] at hbad
    cases hbad
  · -- the high byte of `BUF` is foreign
    have hlt := base.isLt
    have hout : ¬ InBlock (base + m) MESSAGE_SIZE (m + 47) :=
      not_inBlock_of_base (k := 47) (by omega) (by rw [MESSAGE_SIZE]; omega)
    have hbad := hag (stale m 14 0) (stale m 14 1) SEND
      (fun x hx => stale_agree (Or.inl rfl)
        (Or.inr fun heq => hout (heq ▸ hx)))
    rw [handlerBranch, handlerBranch, type_stale, type_stale, buf_stale,
      buf_stale] at hbad
    cases hbad

/-- **WHO DECIDES**: the caller's own message decides the call if and only if
    the caller is native, where the base is 0, or the base of his data segment
    is at most 4. -/
theorem callerDecides_iff (T : Table) (pid : Int) (m : Addr) :
    CallerDecides T pid m ↔
      pid < NR_TASKS_NATIVE + NR_PROCS_NATIVE ∨
        (gdtLdtToBaseAddr (T pid).ldtRw).toNat ≤ 4 := by
  constructor
  · intro h
    by_contra hcon
    rw [not_or, NR_TASKS_NATIVE, NR_PROCS_NATIVE] at hcon
    exact not_callerDecides m (by omega) (by omega) h
  · rintro (hpid | hbase)
    · intro la hla
      have hzero := (procVa2la_eq_ok.mp hla).2 hpid
      exact callerDecides_of_base (by rw [hzero]; decide) la hla
    · exact callerDecides_of_base hbase

/-- The first forked process, at the base that `alloc_mem` gives it, sends a
    message at virtual address 0x1000 while a `PRINTX` message lies at that
    address of INIT: its SEND is taken for a print. -/
theorem handlerBranch_stale_print :
    ∃ (T : Table) (mem mem' : Mem) (la : Addr),
      gdtLdtToBaseAddr (T 9).ldtRw = 0xA00000 ∧
        procVa2la T 9 0x1000 = .ok la ∧
        (∀ x, InBlock la MESSAGE_SIZE x → mem' x = mem x) ∧
        handlerBranch mem SEND 0x1000 = .send ∧
        handlerBranch mem' SEND 0x1000 = .printx 0 ∧
        ¬ CallerDecides T 9 0x1000 := by
  let T : Table := (initProcess 0 fun _ => freeProc).upd 9 fun _ =>
    nativeProc (makeGdtDesc 0xA00000 0xFF 0) (makeGdtDesc 0xA00000 0xFF 0)
  have hbase : gdtLdtToBaseAddr (T 9).ldtRw = 0xA00000 :=
    gdtLdtToBaseAddr_makeGdtDesc _ _ _
  have hla : procVa2la T 9 0x1000 = .ok (0xA00000 + 0x1000) := by
    rw [procVa2la_eq_ok, hbase]
    exact ⟨rfl, fun h => absurd h (by decide)⟩
  have hag : ∀ x, InBlock (0xA00000 + 0x1000) MESSAGE_SIZE x →
      stale 0x1000 14 0 x = stale 0x1000 0 0 x := by
    intro x hx
    refine stale_agree (Or.inr ?_) (Or.inl rfl)
    rintro rfl
    exact absurd hx (by decide)
  have hsend : handlerBranch (stale 0x1000 0 0) SEND 0x1000 = .send := by
    rw [handlerBranch, type_stale]
    rfl
  have hprint : handlerBranch (stale 0x1000 14 0) SEND 0x1000 = .printx 0 := by
    rw [handlerBranch, type_stale, buf_stale]
    rfl
  refine ⟨T, _, _, _, hbase, hla, hag, hsend, hprint, fun hdec => ?_⟩
  have hbad := hdec _ hla _ _ SEND hag
  rw [hsend, hprint] at hbad
  cases hbad

end KosSyscall
