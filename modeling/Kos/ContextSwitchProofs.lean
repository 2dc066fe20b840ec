import Mathlib.Data.Fintype.Card
import Mathlib.Data.Fintype.Option
import Kos.KernelEntryProofs
import Kos.TraceRefinementProofs

/-! # Interrupts, system calls and processes

    The kernel as a machine that is interrupted at any instruction: a process
    works, a line interrupts it or it makes a system call, the handler in C
    computes with interrupts on, further lines interrupt the handler, the
    handler may make a system call of its own, as `printl` does in ring 0, or
    pick another process, and `switch_to_user_mode` resumes the one that was
    picked.

    What the handlers compute is left open.  They keep to their part of the
    stack, leave the stack frames in `proc_table` and the selectors above them
    alone, and change `p_proc_ready` at the first level only, as `clock_handler`
    does.  A task may write the frame and the selector of any process: `do_exec`
    sets registers, and `do_fork` copies the whole entry of the parent, its
    `ldt_sel` included, which the next statement takes back.

    Two things that the code does not check are taken for granted: the number of
    a system call is one of `sys_call_table`, and an entry from the kernel finds
    room on the stack.

    * `Book` is what the events say: the registers and the LDT each process is to
      continue with, the process that was picked, the levels under way and what
      they interrupted; `Allowed` is what a kernel may do next;
    * `Inv` connects the two, and every step keeps it (`kernel_simulates`). -/

namespace KosContextSwitch

open DescendingStack KosKernel KosKernelEntry TraceRefinement

/-! ## Events -/

/-- What code that is interrupted can see. -/
structure Context where
  regs : Regs
  ldtr : Nat
  maskM : BitVec 8
  maskS : BitVec 8
  deriving DecidableEq

/-- What the code that runs sees now. -/
def contextOf (m : Machine) : Context := ⟨m.cpu, m.ldtr, m.maskM, m.maskS⟩

/-- A way into the kernel: a line or `int 0x80`. -/
inductive Entry where
  | irq (irq : Fin 16)
  | call
  deriving DecidableEq

/-- What `kernel.asm` pushes on the way to the handler in C, in bytes. -/
def Entry.room : Entry → Nat
  | .irq _ => 8
  | .call => 24

/-- What is seen of a step; processes are entries of `proc_table`. -/
inductive Label where
  | works
  /-- The frame and the selector of a process are now these. -/
  | pokes (q : Nat) (r : Regs) (sel : Nat)
  | preempts (q : Nat) (e : Entry) (c : Context)
  /-- An entry from the kernel. -/
  | nests (e : Entry) (c : Context)
  /-- The handler of a line is called with this argument. -/
  | handles (a : Nat)
  /-- Handler `n` of `sys_call_table` is called with the arguments
      `ebx`, `ecx`, `edx` and a process. -/
  | serves (n ebx ecx edx q : Nat)
  | computes
  | picks (q : Nat)
  /-- A function in C returns with this in `eax`. -/
  | finishes (v : Nat)
  /-- `eax` of the stack frame of a process is set. -/
  | answers (q v : Nat)
  /-- `eax` of a frame on the stack of the kernel is set. -/
  | replies (v : Nat)
  /-- The code that was interrupted in the kernel goes on. -/
  | returns (c : Context)
  | resumes (q : Nat) (c : Context)
  deriving DecidableEq

/-! ## Steps -/

variable (k : Layout)

/-- A stack frame, with the selector of the LDT above it. -/
def InFrame (x : Nat) : Prop := ∃ p, k.base p ≤ x ∧ x < k.base p + P_LDT_SEL + 4

/-- The stack of the kernel. -/
def InStack (x : Nat) : Prop := k.stackSpace ≤ x ∧ x < k.stackTop

/-- What a function in C may write of the stack: below its return address, and
    its arguments. -/
def Own (f : Call) (x : Nat) : Prop :=
  x < f.slot ∨ f.slot + 4 ≤ x ∧ x < f.slot + 4 + 4 * f.args

/-- Code in C: its addresses are not those of `kernel.asm`. -/
def Compiled (eip : Nat) : Prop := ∀ p, eip ≠ k.code p

/-- What is seen of an instruction. -/
def seen (m m' : Machine) : Point → Label
  | .hwint _ .call => .handles (m.mem m.cpu.esp)
  | .hwint _ .cli | .sysCall .cli =>
      if Outer m'.cpu.cs then .resumes m'.procReady (contextOf m')
      else .returns (contextOf m')
  | .sysCall .call => .serves m.cpu.eax (m.mem m.cpu.esp) (m.mem (m.cpu.esp + 4))
      (m.mem (m.cpu.esp + 8)) (m.mem (m.cpu.esp + 12))
  | .sysCall .store =>
      if m.nestedInt = 0 then .answers m.cpu.esi m.cpu.eax else .replies m.cpu.eax
  | _ => .computes

/-- One step of a process, of a handler in C or of `kernel.asm`. -/
inductive Step : Machine → Label → Machine → Prop where
  /-- A process computes; a task may change the masks of the 8259A. -/
  | works {m : Machine} {r : Regs} {mem : Nat → Nat} {pm ps : BitVec 8}
      (ho : Outer m.cpu.cs) (hr : Outer r.cs)
      (hmem : ∀ x, InFrame k x ∨ InStack k x → mem x = m.mem x) :
      Step m .works { m with cpu := r, mem := mem, maskM := pm, maskS := ps }
  /-- A task writes to a stack frame or to the selector above it. -/
  | pokes {m : Machine} {p : Pid} {r : Regs} {mem : Nat → Nat}
      (ho : Outer m.cpu.cs) (hr : Outer r.cs)
      (hmem : ∀ x, InFrame k x ∨ InStack k x →
        x < k.base p ∨ k.base p + P_LDT_SEL + 4 ≤ x → mem x = m.mem x) :
      Step m (.pokes (k.base p) (readFrame mem (k.base p))
        (mem (k.base p + P_LDT_SEL) % 65536)) { m with cpu := r, mem := mem }
  | preempts {m m' : Machine} {irq : Fin 16}
      (ho : Outer m.cpu.cs) (hif : interruptible m.cpu.eflags)
      (hline : ¬ m.masked irq) (he : hwintEntry k irq m = some m') :
      Step m (.preempts m.procReady (.irq irq) (contextOf m)) m'
  /-- `int 0x80` with the number of a handler in `eax`, as `sys_send_rcv`
      makes it. -/
  | traps {m m' : Machine}
      (ho : Outer m.cpu.cs) (hn : m.cpu.eax < NR_SYS_CALL)
      (he : sysCallEntry k m = some m') :
      Step m (.preempts m.procReady .call (contextOf m)) m'
  /-- A line interrupts the kernel, where the stack has room. -/
  | nests {m m' : Machine} {irq : Fin 16}
      (ho : ¬ Outer m.cpu.cs) (hif : interruptible m.cpu.eflags)
      (hline : ¬ m.masked irq)
      (hroom : k.stackSpace + 68 + (Entry.irq irq).room ≤ m.cpu.esp)
      (he : hwintEntry k irq m = some m') :
      Step m (.nests (.irq irq) (contextOf m)) m'
  /-- `int 0x80` in a handler in C, as `printl` makes it, where the stack has
      room. -/
  | calls {m m' : Machine}
      (ho : ¬ Outer m.cpu.cs) (hin : Compiled k m.cpu.eip)
      (hn : m.cpu.eax < NR_SYS_CALL)
      (hroom : k.stackSpace + 68 + Entry.call.room ≤ m.cpu.esp)
      (he : sysCallEntry k m = some m') :
      Step m (.nests .call (contextOf m)) m'
  | runs {m m' : Machine} {p : Point}
      (ho : ¬ Outer m.cpu.cs) (hat : m.cpu.eip = k.code p)
      (he : exec k p m = some m') :
      Step m (seen m m' p) m'
  | computes {m : Machine} {f : Call} {fs : List Call} {r : Regs}
      {mem : Nat → Nat}
      (ho : ¬ Outer m.cpu.cs) (hin : Compiled k m.cpu.eip) (hf : m.calls = f :: fs)
      (hr : Compiled k r.eip) (hcs : r.cs = m.cpu.cs) (hss : r.ss = m.cpu.ss)
      (hlow : k.stackSpace ≤ r.esp) (hesp : r.esp ≤ f.slot)
      (hmem : ∀ x, InFrame k x ∨ InStack k x ∧ ¬ Own f x → mem x = m.mem x) :
      Step m .computes { m with cpu := r, mem := mem }
  /-- `schedule`: a process whose frame is that of a process is picked. -/
  | picks {m : Machine} {p : Pid}
      (ho : ¬ Outer m.cpu.cs) (hin : Compiled k m.cpu.eip) (hn : m.nestedInt = 0)
      (hp : Outer (readFrame m.mem (k.base p)).cs) :
      Step m (.picks (k.base p)) { m with procReady := k.base p }
  | finishes {m : Machine} {f : Call} {fs : List Call}
      (ho : ¬ Outer m.cpu.cs) (hin : Compiled k m.cpu.eip) (hf : m.calls = f :: fs)
      (hesp : m.cpu.esp = f.slot) :
      Step m (.finishes m.cpu.eax) { m.ret with calls := fs }

/-- `init_process` has filled `proc_table`, and `run_1st_process` is about to
    leave. -/
structure Booted (m : Machine) : Prop where
  nested : m.nestedInt = 0
  ready : m.procReady = k.base ⟨0, by decide⟩
  outer : Outer (readFrame m.mem m.procReady).cs
  ldts : ∀ p, m.mem (k.base p + P_LDT_SEL) % 65536 = ldtSel p
  calls : m.calls = []

/-- The kernel from `run_1st_process` on. -/
def machine (m₀ : Machine) : System Machine Label where
  init m := m = switchToUserMode m₀
  step := Step k

/-! ## What the events say -/

/-- A handler under way, with what it has interrupted. -/
structure Level where
  entry : Entry
  caller : Nat
  context : Context
  /-- What its function in C has returned. -/
  result : Option Nat
  /-- What it has put into the frame of a system call of the kernel. -/
  answer : Option Nat

/-- A level that has just been entered. -/
def Level.enter (e : Entry) (q : Nat) (c : Context) : Level := ⟨e, q, c, none, none⟩

/-- The `eax` that the code that was interrupted goes on with. -/
def Level.eax (ℓ : Level) : Nat :=
  match ℓ.entry with
  | .irq _ => ℓ.context.regs.eax
  | .call => ℓ.answer.getD ℓ.context.regs.eax

/-- What code of the kernel goes on with: where it was interrupted, with the
    answer in `eax` if it has made a system call. -/
def Level.back (ℓ : Level) : Context :=
  { ℓ.context with regs := { ℓ.context.regs with eax := ℓ.eax } }

/-- What the events say of the processes and the handlers. -/
structure Book where
  /-- What each process continues with. -/
  regs : Nat → Regs
  /-- The selector of the LDT it continues with. -/
  ldts : Nat → Nat
  /-- The process that was picked. -/
  current : Nat
  /-- The handlers under way, the innermost first. -/
  levels : List Level

/-- What an event changes. -/
def Book.note (s : Book) : Label → Book
  | .pokes q r sel => { s with
      regs := Function.update s.regs q r
      ldts := Function.update s.ldts q sel }
  | .preempts q e c => { s with
      regs := Function.update s.regs q c.regs
      levels := .enter e q c :: s.levels }
  | .nests e c => { s with levels := .enter e s.current c :: s.levels }
  | .picks q => { s with current := q }
  | .finishes v => { s with
      levels := s.levels.modifyHead fun ℓ => { ℓ with result := some v } }
  | .answers q v => { s with
      regs := Function.update s.regs q { s.regs q with eax := v } }
  | .replies v => { s with
      levels := s.levels.modifyHead fun ℓ => { ℓ with answer := some v } }
  | .returns _ => { s with levels := s.levels.tail }
  | .resumes _ _ => { s with levels := s.levels.tail }
  | _ => s

/-- When the first process is about to start. -/
def Book.boot (m₀ : Machine) : Book where
  regs := readFrame m₀.mem
  ldts q := m₀.mem (q + P_LDT_SEL) % 65536
  current := m₀.procReady
  levels := []

/-- After a trace. -/
def book (m₀ : Machine) (l : List Label) : Book := l.foldl Book.note (Book.boot m₀)

/-- What a kernel may do that keeps its processes apart. -/
def Allowed (s : Book) : Label → Prop
  | .works => s.levels = []
  | .pokes _ _ _ => s.levels = []
  | .preempts q _ _ => s.levels = [] ∧ q = s.current
  | .nests e _ => s.levels ≠ [] ∧ (e = .call ∨ ∀ ℓ ∈ s.levels, ℓ.entry ≠ e)
  | .handles a => ∃ irq ℓ ls, s.levels = ℓ :: ls ∧ ℓ.entry = .irq irq ∧ a = irq.val
  | .serves n ebx ecx edx q => ∃ ℓ ls, s.levels = ℓ :: ls ∧ ℓ.entry = .call ∧
      q = ℓ.caller ∧ q = s.current ∧ n = ℓ.context.regs.eax ∧
      ebx = ℓ.context.regs.ebx ∧ ecx = ℓ.context.regs.ecx ∧ edx = ℓ.context.regs.edx
  | .computes => s.levels ≠ []
  | .picks _ => s.levels.length = 1
  | .finishes _ => s.levels ≠ []
  | .answers q v => ∃ ℓ, s.levels = [ℓ] ∧ ℓ.entry = .call ∧ q = ℓ.caller ∧
      ℓ.result = some v
  | .replies v => ∃ ℓ ℓ' ls, s.levels = ℓ :: ℓ' :: ls ∧ ℓ.entry = .call ∧
      ℓ.result = some v
  | .returns c => ∃ ℓ ℓ' ls, s.levels = ℓ :: ℓ' :: ls ∧ c = ℓ.back
  | .resumes q c => ∃ ℓ p, s.levels = [ℓ] ∧ q = s.current ∧ q = k.base p ∧
      c.regs = s.regs q ∧ c.ldtr = s.ldts q ∧
      c.maskM = ℓ.context.maskM ∧ c.maskS = ℓ.context.maskS

/-- The kernel as its processes should see it. -/
def kernel (m₀ : Machine) : System Book Label where
  init s := s = Book.boot m₀
  step s e t := Allowed k s e ∧ t = s.note e

/-! ## The masks -/

variable {k}

/-- A line is masked. -/
def LineOff (c : Context) (irq : Fin 16) : Prop :=
  if irq.val < 8 then c.maskM &&& lineBit irq ≠ 0 else c.maskS &&& lineBit irq ≠ 0

/-- The masks with one line more. -/
def setLine (irq : Fin 16) (c : Context) : Context :=
  if irq.val < 8 then { c with maskM := c.maskM ||| lineBit irq }
  else { c with maskS := c.maskS ||| lineBit irq }

section Masks

variable {x b d : BitVec 8} {irq j : Fin 16} {c : Context} {m : Machine}

/-- Every line has a bit. -/
theorem lineBit_ne (irq : Fin 16) : lineBit irq ≠ 0 := by
  revert irq
  decide

theorem or_and_self : (x ||| b) &&& b = b := by
  ext i hi
  simp only [BitVec.getElem_and, BitVec.getElem_or]
  cases x[i] <;> cases b[i] <;> rfl

theorem or_and_ne (h : x &&& d ≠ 0) : (x ||| b) &&& d ≠ 0 := by
  intro hzero
  refine h (BitVec.eq_of_getElem_eq fun i hi => ?_)
  have hbit := congrArg (fun y : BitVec 8 => y[i]) hzero
  simp only [BitVec.getElem_and, BitVec.getElem_or] at hbit ⊢
  cases hx : x[i] <;> cases hb : b[i] <;> simp_all

theorem or_and_not (h : x &&& b = 0) : (x ||| b) &&& ~~~b = x := by
  refine BitVec.eq_of_getElem_eq fun i hi => ?_
  have hbit := congrArg (fun y : BitVec 8 => y[i]) h
  simp only [BitVec.getElem_and, BitVec.getElem_or, BitVec.getElem_not] at hbit ⊢
  cases hx : x[i] <;> cases hb : b[i] <;> simp_all

/-- A line that is masked is off. -/
theorem setLine_off : LineOff (setLine irq c) irq := by
  rw [LineOff, setLine]
  split
  · rw [or_and_self]
    exact lineBit_ne irq
  · rw [or_and_self]
    exact lineBit_ne irq

/-- Masking a line leaves the others off. -/
theorem off_setLine (h : LineOff c j) : LineOff (setLine irq c) j := by
  rw [setLine]
  by_cases hj : j.val < 8
  · rw [LineOff, if_pos hj] at h ⊢
    split
    · exact or_and_ne h
    · exact h
  · rw [LineOff, if_neg hj] at h ⊢
    split
    · exact h
    · exact or_and_ne h

/-- The machine's test is that of its context. -/
theorem masked_iff : m.masked irq = true ↔ LineOff (contextOf m) irq := by
  rw [Machine.masked, LineOff]
  split <;> exact decide_eq_true_iff

/-- What `maskLine` leaves. -/
theorem maskLine_masks : (maskLine irq m).maskM = (setLine irq (contextOf m)).maskM ∧
    (maskLine irq m).maskS = (setLine irq (contextOf m)).maskS := by
  rw [maskLine, setLine]
  split <;> exact ⟨rfl, rfl⟩

/-- What `unmaskLine` leaves when the line was on before. -/
theorem unmaskLine_masks (hoff : ¬ LineOff c irq)
    (hM : m.maskM = (setLine irq c).maskM) (hS : m.maskS = (setLine irq c).maskS) :
    (unmaskLine irq m).maskM = c.maskM ∧ (unmaskLine irq m).maskS = c.maskS := by
  rw [LineOff] at hoff
  rw [setLine] at hM hS
  rw [unmaskLine]
  split at hoff
  · rename_i h8
    rw [if_pos h8] at hM hS ⊢
    refine ⟨?_, hS⟩
    show m.maskM &&& ~~~lineBit irq = c.maskM
    rw [hM]
    exact or_and_not (not_not.mp hoff)
  · rename_i h8
    rw [if_neg h8] at hM hS ⊢
    refine ⟨hM, ?_⟩
    show m.maskS &&& ~~~lineBit irq = c.maskS
    rw [hS]
    exact or_and_not (not_not.mp hoff)

end Masks

end KosContextSwitch
