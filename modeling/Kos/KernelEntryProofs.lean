import Kos.DescendingStackProofs
import Kos.KernelProofs

/-! # Entering and leaving the kernel

    The code of `kernel.asm` between a process and the handlers in C: the gates
    of the IDT, `save`, the macros `hwint_master` and `hwint_slave`, `sys_call`,
    `switch_to_user_mode` and `switch_to_user_mode_reenter`.

    Memory is in cells of four bytes, and a selector is the word that is pushed
    for it.  Code runs without a break where interrupts are off; where they are
    on, each instruction is a step (`exec`).

    * an entry from a process leaves its registers in its stack frame, and one
      from the kernel leaves those of the kernel below its stack pointer
      (`enter_outer`, `enter_inner`);
    * `switch_to_user_mode_reenter` takes them back (`reenter_outer`,
      `reenter_inner`). -/

namespace KosKernelEntry

open DescendingStack KosKernel

/-- The entries of `proc_table`. -/
abbrev Pid := Fin (NR_TASKS_NATIVE + NR_PROCS_MAX).toNat

/-- Of `sconst.inc`: selectors, and the offsets in a stack frame. -/
def SELECTOR_KERNEL_CS : Nat := 0x08
def SELECTOR_KERNEL_DS : Nat := 0x10
def SELECTOR_LDT_FIRST : Nat := 0x28
def RETADR : Nat := 48
def EAXREG : Nat := 44
def P_STACKTOP : Nat := 72
def P_LDT_SEL : Nat := P_STACKTOP

/-- The entries of `sys_call_table`. -/
def NR_SYS_CALL : Nat := 1

/-- The end of an interrupt, for the 8259A. -/
def EOI : BitVec 8 := 0x20

/-- `resb 2 * 1024`. -/
def STACK_SPACE : Nat := 2 * 1024

/-! ## The machine -/

/-- What `struct stackframe` keeps of the registers. -/
structure Regs where
  gs : Nat
  fs : Nat
  es : Nat
  ds : Nat
  edi : Nat
  esi : Nat
  ebp : Nat
  ebx : Nat
  edx : Nat
  ecx : Nat
  eax : Nat
  eip : Nat
  cs : Nat
  eflags : Nat
  esp : Nat
  ss : Nat
  deriving DecidableEq

/-- A function in C under way: where its return address is, and how many words
    of arguments stand above. -/
structure Call where
  slot : Nat
  args : Nat
  deriving DecidableEq

/-- The processor, the masks of the two 8259A, the memory, the variables of the
    kernel that the code uses, and (for no one but the reader) the functions in
    C that are under way. -/
structure Machine where
  cpu : Regs
  ldtr : Nat
  maskM : BitVec 8
  maskS : BitVec 8
  mem : Nat → Nat
  nestedInt : BitVec 32
  procReady : Nat
  /-- `esp0` of the TSS. -/
  sp0 : Nat
  calls : List Call

/-- The places of `hwint_master` and `hwint_slave`: after `call save`, and the
    instructions from `sti` to `cli`. -/
inductive HwintPoint where
  | saved | push | call | pop | cli
  deriving DecidableEq

/-- The places of `sys_call`. -/
inductive SysCallPoint where
  | saved | pushEsi | pushProc | pushEdx | pushEcx | pushEbx | call | add
  | popEsi | store | cli
  deriving DecidableEq

/-- The places of `kernel.asm` that are returned to. -/
inductive Point where
  | hwint (irq : Fin 16) (p : HwintPoint)
  | sysCall (p : SysCallPoint)
  | switchToUserMode
  | switchToUserModeReenter
  deriving DecidableEq

/-- Where the linker puts things: the stack of the kernel and `proc_table` are
    apart, and the handlers in C are other code than `kernel.asm`. -/
structure Layout where
  stackSpace : Nat
  procTable : Nat
  procSize : Nat
  code : Point → Nat
  irqTable : Fin 16 → Nat
  sysCallTable : Nat → Nat
  size_le : P_LDT_SEL + 4 ≤ procSize
  apart : stackSpace + STACK_SPACE ≤ procTable ∨
    procTable + procSize * (NR_TASKS_NATIVE + NR_PROCS_MAX).toNat ≤ stackSpace
  code_injective : Function.Injective code
  irq_compiled : ∀ irq p, irqTable irq ≠ code p
  sys_compiled : ∀ n p, n < NR_SYS_CALL → sysCallTable n ≠ code p

/-- `StackTop`. -/
def Layout.stackTop (k : Layout) : Nat := k.stackSpace + STACK_SPACE

/-- `&proc_table[p]`. -/
def Layout.base (k : Layout) (p : Pid) : Nat := k.procTable + k.procSize * p.val

/-- What `init_ldt_desc` puts into `ldt_sel`. -/
def ldtSel (p : Pid) : Nat := SELECTOR_LDT_FIRST + p.val * 8

/-- The registers in a stack frame at `b`. -/
def readFrame (mem : Nat → Nat) (b : Nat) : Regs where
  gs := mem b
  fs := mem (b + 4)
  es := mem (b + 8)
  ds := mem (b + 12)
  edi := mem (b + 16)
  esi := mem (b + 20)
  ebp := mem (b + 24)
  ebx := mem (b + 32)
  edx := mem (b + 36)
  ecx := mem (b + 40)
  eax := mem (b + EAXREG)
  eip := mem (b + 52)
  cs := mem (b + 56)
  eflags := mem (b + 60)
  esp := mem (b + 64)
  ss := mem (b + 68)

/-! ## Instructions -/

/-- Code of a process: the selector asks for another ring than 0. -/
def Outer (cs : Nat) : Prop := cs % 4 ≠ 0

instance (cs : Nat) : Decidable (Outer cs) := inferInstanceAs (Decidable (_ ≠ _))

/-- Bit 9 of `eflags`. -/
def interruptible (eflags : Nat) : Bool := eflags.testBit 9

/-- Interrupts off. -/
def Machine.cli (m : Machine) : Machine :=
  { m with cpu.eflags :=
      if interruptible m.cpu.eflags then m.cpu.eflags - 512 else m.cpu.eflags }

/-- Interrupts on. -/
def Machine.sti (m : Machine) : Machine :=
  { m with cpu.eflags :=
      if interruptible m.cpu.eflags then m.cpu.eflags else m.cpu.eflags + 512 }

/-- The next instruction is at `eip`. -/
def Machine.goto (m : Machine) (eip : Nat) : Machine := { m with cpu.eip := eip }

/-- The low byte of `eax`. -/
def Machine.setAl (m : Machine) (al : BitVec 8) : Machine :=
  { m with cpu.eax := m.cpu.eax / 256 * 256 + al.toNat }

/-- A word below the stack pointer. -/
def Machine.push (m : Machine) (w : Nat) : Machine :=
  { m with
    cpu.esp := m.cpu.esp - 4
    mem := Function.update m.mem (m.cpu.esp - 4) w }

/-- Several words, the first at the highest address. -/
def Machine.pushes (m : Machine) (ws : List Nat) : Machine := ws.foldl Machine.push m

/-- The word at the stack pointer, into a register. -/
def Machine.pop (m : Machine) (set : Regs → Nat → Regs) : Machine :=
  { m with cpu := set { m.cpu with esp := m.cpu.esp + 4 } (m.mem m.cpu.esp) }

/-- The general registers, `esp` as it was among them. -/
def Machine.pushad (m : Machine) : Machine :=
  m.pushes [m.cpu.eax, m.cpu.ecx, m.cpu.edx, m.cpu.ebx, m.cpu.esp, m.cpu.ebp,
    m.cpu.esi, m.cpu.edi]

/-- The word of `esp` is skipped. -/
def Machine.popad (m : Machine) : Machine :=
  let m := m.pop fun r w => { r with edi := w }
  let m := m.pop fun r w => { r with esi := w }
  let m := m.pop fun r w => { r with ebp := w }
  let m := m.pop fun r _ => r
  let m := m.pop fun r w => { r with ebx := w }
  let m := m.pop fun r w => { r with edx := w }
  let m := m.pop fun r w => { r with ecx := w }
  m.pop fun r w => { r with eax := w }

/-- Back to the address at the stack pointer. -/
def Machine.ret (m : Machine) : Machine := m.pop fun r w => { r with eip := w }

/-- An interrupt gate: from a process, on the stack that the TSS gives. -/
def Machine.gate (m : Machine) : Machine :=
  let r := m.cpu
  let m := if Outer r.cs then
      { m with cpu.esp := m.sp0, cpu.ss := SELECTOR_KERNEL_DS }.pushes [r.ss, r.esp]
    else m
  let m := m.pushes [r.eflags, r.cs, r.eip]
  { m.cli with cpu.cs := SELECTOR_KERNEL_CS }

/-- To a process, with its stack as well. -/
def Machine.iretd (m : Machine) : Machine :=
  let m := m.pop fun r w => { r with eip := w }
  let m := m.pop fun r w => { r with cs := w }
  let m := m.pop fun r w => { r with eflags := w }
  if Outer m.cpu.cs then
    { m with
      cpu.esp := m.mem m.cpu.esp
      cpu.ss := m.mem (m.cpu.esp + 4) }
  else m

/-! ## The routines -/

variable (k : Layout)

/-- From the place in its IDT entry to `call save`, which pushes `w`. -/
def callSave (w : Nat) (m : Machine) : Machine :=
  let m := m.push w
  let m := m.pushad
  let m := m.pushes [m.cpu.ds, m.cpu.es, m.cpu.fs, m.cpu.gs]
  -- `edx` waits in `esi` while `dx` carries `ss`
  let m := { m with cpu.esi := m.cpu.edx }
  let m := { m with cpu.edx := m.cpu.edx / 65536 * 65536 + m.cpu.ss }
  let m := { m with cpu.ds := m.cpu.ss, cpu.es := m.cpu.ss, cpu.fs := m.cpu.ss }
  let m := { m with cpu.edx := m.cpu.esi }
  let m := { m with cpu.esi := m.cpu.esp, nestedInt := m.nestedInt + 1 }
  let m := if m.nestedInt = 0 then
      { m with cpu.esp := k.stackTop }.push (k.code .switchToUserMode)
    else m.push (k.code .switchToUserModeReenter)
  m.goto (m.mem (m.cpu.esi + RETADR))

/-- The bit of a line at its 8259A. -/
def lineBit (irq : Fin 16) : BitVec 8 :=
  if irq.val < 8 then 1#8 <<< irq.val else 1#8 <<< (irq.val - 8)

/-- The 8259A of the line does not let it through. -/
def Machine.masked (m : Machine) (irq : Fin 16) : Bool :=
  if irq.val < 8 then m.maskM &&& lineBit irq ≠ 0 else m.maskS &&& lineBit irq ≠ 0

/-- The line is masked and its interrupt acknowledged. -/
def maskLine (irq : Fin 16) (m : Machine) : Machine :=
  let m := if irq.val < 8 then { m with maskM := m.maskM ||| lineBit irq }
    else { m with maskS := m.maskS ||| lineBit irq }
  m.setAl EOI

/-- The line is let through again. -/
def unmaskLine (irq : Fin 16) (m : Machine) : Machine :=
  if irq.val < 8 then
    let al := m.maskM &&& ~~~lineBit irq
    { m.setAl al with maskM := al }
  else
    let al := m.maskS &&& ~~~lineBit irq
    { m.setAl al with maskS := al }

/-- The interrupt of a line, up to `sti`. -/
def hwintEntry (irq : Fin 16) (m : Machine) : Option Machine :=
  let m := callSave k (k.code (.hwint irq .saved)) m.gate
  if m.cpu.eip = k.code (.hwint irq .saved) then
    some ((maskLine irq m).sti.goto (k.code (.hwint irq .push)))
  else none

/-- `int 0x80`, up to `sti`. -/
def sysCallEntry (m : Machine) : Option Machine :=
  let m := callSave k (k.code (.sysCall .saved)) m.gate
  if m.cpu.eip = k.code (.sysCall .saved) then
    some (m.sti.goto (k.code (.sysCall .pushEsi)))
  else none

/-- Back to what was interrupted, a process or the kernel. -/
def switchToUserModeReenter (m : Machine) : Machine :=
  let m := { m with nestedInt := m.nestedInt - 1 }
  let m := m.pop fun r w => { r with gs := w }
  let m := m.pop fun r w => { r with fs := w }
  let m := m.pop fun r w => { r with es := w }
  let m := m.pop fun r w => { r with ds := w }
  let m := m.popad
  let m := { m with cpu.esp := m.cpu.esp + 4 }
  m.iretd

/-- Back to the process in `p_proc_ready`. -/
def switchToUserMode (m : Machine) : Machine :=
  let m := { m with cpu.esp := m.procReady }
  let m := { m with ldtr := m.mem (m.cpu.esp + P_LDT_SEL) % 65536 }
  let m := { m with cpu.eax := m.cpu.esp + P_STACKTOP }
  switchToUserModeReenter { m with sp0 := m.cpu.eax }

/-- `ret`, to one of the two ways out. -/
def leave (m : Machine) : Option Machine :=
  let m := m.ret
  if m.cpu.eip = k.code .switchToUserMode then some (switchToUserMode m)
  else if m.cpu.eip = k.code .switchToUserModeReenter then
    some (switchToUserModeReenter m)
  else none

/-- `call` of a function in C with so many arguments on the stack. -/
def callC (target back args : Nat) (m : Machine) : Machine :=
  let m := (m.push back).goto target
  { m with calls := ⟨m.cpu.esp, args⟩ :: m.calls }

/-- One instruction of `hwint_master` or `hwint_slave`, from `cli` on to the
    end. -/
def execHwint (irq : Fin 16) : HwintPoint → Machine → Option Machine
  | .saved, _ => none
  | .push, m => some ((m.push irq.val).goto (k.code (.hwint irq .call)))
  | .call, m => some (callC (k.irqTable irq) (k.code (.hwint irq .pop)) 1 m)
  | .pop, m => some ((m.pop fun r w => { r with ecx := w }).goto
      (k.code (.hwint irq .cli)))
  | .cli, m => leave k (unmaskLine irq m.cli)

/-- One instruction of `sys_call`, from `push esi` on to the end. -/
def execSysCall : SysCallPoint → Machine → Option Machine
  | .saved, _ => none
  | .pushEsi, m => some ((m.push m.cpu.esi).goto (k.code (.sysCall .pushProc)))
  | .pushProc, m => some ((m.push m.procReady).goto (k.code (.sysCall .pushEdx)))
  | .pushEdx, m => some ((m.push m.cpu.edx).goto (k.code (.sysCall .pushEcx)))
  | .pushEcx, m => some ((m.push m.cpu.ecx).goto (k.code (.sysCall .pushEbx)))
  | .pushEbx, m => some ((m.push m.cpu.ebx).goto (k.code (.sysCall .call)))
  | .call, m => some (callC (k.sysCallTable m.cpu.eax) (k.code (.sysCall .add)) 4 m)
  | .add, m => some ({ m with cpu.esp := m.cpu.esp + 4 * 4 }.goto
      (k.code (.sysCall .popEsi)))
  | .popEsi, m => some ((m.pop fun r w => { r with esi := w }).goto
      (k.code (.sysCall .store)))
  | .store, m => some ({ m with
      mem := Function.update m.mem (m.cpu.esi + EAXREG) m.cpu.eax }.goto
      (k.code (.sysCall .cli)))
  | .cli, m => leave k m.cli

/-- The instruction at a place where interrupts are on. -/
def exec : Point → Machine → Option Machine
  | .hwint irq p, m => execHwint k irq p m
  | .sysCall p, m => execSysCall k p m
  | .switchToUserMode, _ => none
  | .switchToUserModeReenter, _ => none

/-! ## What an entry does -/

variable {k} {m m' : Machine} {w b e x : Nat} {ws : List Nat}

/-- Several pushes at once. -/
theorem pushes_eq (m : Machine) (ws : List Nat) : m.pushes ws =
    { m with
      cpu.esp := m.cpu.esp - 4 * ws.length
      mem := pushAll m.mem m.cpu.esp ws } := by
  induction ws generalizing m with
  | nil => rfl
  | cons w ws ih =>
      have hlen : m.cpu.esp - 4 * (w :: ws).length = m.cpu.esp - 4 - 4 * ws.length := by
        rw [List.length_cons]
        omega
      rw [hlen]
      exact ih (m.push w)

/-- The gate from a process: five words on the stack of the TSS. -/
theorem gate_outer (ho : Outer m.cpu.cs) : m.gate =
    { m with
      cpu := { m.cli.cpu with
        esp := m.sp0 - 20, ss := SELECTOR_KERNEL_DS, cs := SELECTOR_KERNEL_CS }
      mem := pushAll m.mem m.sp0
        [m.cpu.ss, m.cpu.esp, m.cpu.eflags, m.cpu.cs, m.cpu.eip] } := by
  rw [Machine.gate]
  simp only [if_pos ho, pushes_eq, List.length_cons, List.length_nil, Nat.sub_sub]
  rfl

/-- The gate from the kernel: three words. -/
theorem gate_inner (ho : ¬ Outer m.cpu.cs) : m.gate =
    { m with
      cpu := { m.cli.cpu with esp := m.cpu.esp - 12, cs := SELECTOR_KERNEL_CS }
      mem := pushAll m.mem m.cpu.esp [m.cpu.eflags, m.cpu.cs, m.cpu.eip] } := by
  rw [Machine.gate]
  simp only [if_neg ho, pushes_eq, List.length_cons, List.length_nil]
  rfl

/-- The words that `call save` and `save` push. -/
def savedWords (w : Nat) (r : Regs) : List Nat :=
  [w, r.eax, r.ecx, r.edx, r.ebx, r.esp - 4, r.ebp, r.esi, r.edi, r.ds, r.es, r.fs, r.gs]

/-- `save`, when it goes on at `e` with the way out `v`. -/
def saved (w e v : Nat) (m : Machine) : Machine :=
  let mem := Function.update (pushAll m.mem m.cpu.esp (savedWords w m.cpu)) (e - 4) v
  { m with
    cpu := { m.cpu with
      esi := m.cpu.esp - 52, ds := m.cpu.ss, es := m.cpu.ss, fs := m.cpu.ss
      esp := e - 4, eip := mem (m.cpu.esp - 52 + RETADR) }
    mem := mem
    nestedInt := m.nestedInt + 1 }

/-- The first level goes on at the top of the stack. -/
theorem callSave_first (hn : m.nestedInt + 1 = 0) :
    callSave k w m = saved w k.stackTop (k.code .switchToUserMode) m := by
  rw [callSave]
  simp only [Machine.pushad, pushes_eq, List.length_cons, List.length_nil]
  simp only [Machine.push, Machine.goto, if_pos hn, Nat.sub_sub]
  rfl

/-- A nested one goes on below. -/
theorem callSave_nested (hn : m.nestedInt + 1 ≠ 0) :
    callSave k w m = saved w (m.cpu.esp - 52) (k.code .switchToUserModeReenter) m := by
  rw [callSave]
  simp only [Machine.pushad, pushes_eq, List.length_cons, List.length_nil]
  simp only [Machine.push, Machine.goto, if_neg hn, Nat.sub_sub]
  rfl

/-- Where an entry has led: the frame is at `b`, and the code goes on with the
    stack pointer at `e` and the way out `v` there. -/
structure Entered (w b e v : Nat) (m m' : Machine) : Prop where
  eip : m'.cpu.eip = w
  esp : m'.cpu.esp = e
  esi : m'.cpu.esi = b
  out : m'.mem e = v
  eax : m'.cpu.eax = m.cpu.eax
  ebx : m'.cpu.ebx = m.cpu.ebx
  ecx : m'.cpu.ecx = m.cpu.ecx
  edx : m'.cpu.edx = m.cpu.edx
  cs : m'.cpu.cs = SELECTOR_KERNEL_CS
  ss : m'.cpu.ss = SELECTOR_KERNEL_DS
  nested : m'.nestedInt = m.nestedInt + 1
  ready : m'.procReady = m.procReady
  sp0 : m'.sp0 = m.sp0
  ldtr : m'.ldtr = m.ldtr
  maskM : m'.maskM = m.maskM
  maskS : m'.maskS = m.maskS
  calls : m'.calls = m.calls

section Frame

variable {g : Machine} {mem : Nat → Nat} {sp e v : Nat}

/-- The memory behind `save`. -/
theorem saved_mem (hmem : g.mem = pushAll mem sp ws)
    (hesp : g.cpu.esp = sp - 4 * ws.length) : (saved w e v g).mem =
      Function.update (pushAll mem sp (ws ++ savedWords w g.cpu)) (e - 4) v := by
  rw [pushAll_append, ← hmem, ← hesp]
  rfl

theorem saved_length : 4 * (ws ++ savedWords w g.cpu).length = 4 * ws.length + 52 := by
  rw [List.length_append]
  show 4 * (ws.length + 13) = _
  omega

/-- The words of the gate and those of `save` stand below `sp`. -/
theorem saved_held (hmem : g.mem = pushAll mem sp ws)
    (hesp : g.cpu.esp = sp - 4 * ws.length) (hsp : sp = b + 4 * ws.length + 52)
    (hout : e - 4 < b ∨ sp ≤ e - 4) :
    Holds (saved w e v g).mem b (ws ++ savedWords w g.cpu).reverse := by
  have hheld : Holds (pushAll mem sp (ws ++ savedWords w g.cpu))
      (sp - 4 * (ws ++ savedWords w g.cpu).length) (ws ++ savedWords w g.cpu).reverse :=
    holds_pushAll (by rw [saved_length]; omega)
  have hb : sp - 4 * (ws ++ savedWords w g.cpu).length = b := by
    rw [saved_length]
    omega
  rw [hb] at hheld
  refine holds_congr ?_ hheld
  intro x h₁ h₂
  rw [List.length_reverse, saved_length] at h₂
  rw [saved_mem hmem hesp, Function.update_of_ne (by omega)]

/-- Nothing else changes, but the cell of the way out. -/
theorem saved_out (hmem : g.mem = pushAll mem sp ws)
    (hesp : g.cpu.esp = sp - 4 * ws.length) (hsp : sp = b + 4 * ws.length + 52)
    (hx : x < b ∨ sp ≤ x) (hne : x ≠ e - 4) : (saved w e v g).mem x = mem x := by
  rw [saved_mem hmem hesp, Function.update_of_ne hne,
    pushAll_out (by rw [saved_length]; omega) (by rw [saved_length]; omega)]

end Frame

/-- A frame depends on its own cells. -/
theorem readFrame_congr {mem mem' : Nat → Nat}
    (h : ∀ x, b ≤ x → x < b + P_STACKTOP → mem' x = mem x) :
    readFrame mem' b = readFrame mem b := by
  simp only [P_STACKTOP] at h
  simp only [readFrame, EAXREG]
  congr 1 <;> exact h _ (by omega) (by omega)

/-- The frame of an entry from a process, from below. -/
theorem readFrame_outer {mem : Nat → Nat} {r : Regs} {t : Nat}
    (h : Holds mem b [r.gs, r.fs, r.es, r.ds, r.edi, r.esi, r.ebp, t, r.ebx, r.edx,
      r.ecx, r.eax, w, r.eip, r.cs, r.eflags, r.esp, r.ss]) :
    readFrame mem b = r ∧ mem (b + RETADR) = w := by
  simp only [Holds, Nat.add_assoc, Nat.reduceAdd] at h
  obtain ⟨h₁, h₂, h₃, h₄, h₅, h₆, h₇, -, h₈, h₉, h₁₀, h₁₁, hw, h₁₂, h₁₃, h₁₄, h₁₅, h₁₆, -⟩ := h
  refine ⟨?_, hw⟩
  rw [readFrame, h₁, h₂, h₃, h₄, h₅, h₆, h₇, h₈, h₉, h₁₀, EAXREG, h₁₁, h₁₂, h₁₃, h₁₄, h₁₅, h₁₆]

/-- The frame of an entry from the kernel. -/
theorem readFrame_inner {mem : Nat → Nat} {r : Regs} {t : Nat}
    (h : Holds mem b [r.gs, r.fs, r.es, r.ds, r.edi, r.esi, r.ebp, t, r.ebx, r.edx,
      r.ecx, r.eax, w, r.eip, r.cs, r.eflags]) :
    { readFrame mem b with esp := r.esp, ss := r.ss } = r ∧ mem (b + RETADR) = w := by
  simp only [Holds, Nat.add_assoc, Nat.reduceAdd] at h
  obtain ⟨h₁, h₂, h₃, h₄, h₅, h₆, h₇, -, h₈, h₉, h₁₀, h₁₁, hw, h₁₂, h₁₃, h₁₄, -⟩ := h
  refine ⟨?_, hw⟩
  rw [readFrame, h₁, h₂, h₃, h₄, h₅, h₆, h₇, h₈, h₉, h₁₀, EAXREG, h₁₁, h₁₂, h₁₃, h₁₄]

/-- `save` goes back to where it was called, on the stack it has chosen. -/
theorem saved_entered {g : Machine} {b e v : Nat} (hb : g.cpu.esp - 52 = b)
    (hret : (saved w e v g).mem (b + RETADR) = w)
    (hg : ∃ c : Regs, g = { m with cpu := c, mem := g.mem } ∧
      c.eax = m.cpu.eax ∧ c.ebx = m.cpu.ebx ∧ c.ecx = m.cpu.ecx ∧ c.edx = m.cpu.edx ∧
      c.cs = SELECTOR_KERNEL_CS ∧ c.ss = SELECTOR_KERNEL_DS) :
    Entered w b (e - 4) v m (saved w e v g) := by
  obtain ⟨c, hg, heax, hebx, hecx, hedx, hcs, hss⟩ := hg
  have hcpu : g.cpu = c := by rw [hg]
  rw [← hcpu] at heax hebx hecx hedx hcs hss
  exact {
    eip := by
      rw [← hb] at hret
      exact hret
    esp := rfl
    esi := hb
    out := Function.update_self ..
    eax := heax
    ebx := hebx
    ecx := hecx
    edx := hedx
    cs := hcs
    ss := hss
    nested := by
      show g.nestedInt + 1 = _
      rw [hg]
    ready := by rw [saved, hg]
    sp0 := by rw [saved, hg]
    ldtr := by rw [saved, hg]
    maskM := by rw [saved, hg]
    maskS := by rw [saved, hg]
    calls := by rw [saved, hg] }

/-- **FROM A PROCESS**: its registers are in its stack frame. -/
theorem enter_outer (ho : Outer m.cpu.cs) (hsp : m.sp0 = b + P_STACKTOP)
    (hn : m.nestedInt + 1 = 0)
    (hout : k.stackTop - 4 < b ∨ b + P_STACKTOP ≤ k.stackTop - 4) :
    let m' := callSave k w m.gate
    Entered w b (k.stackTop - 4) (k.code .switchToUserMode) m m' ∧
      readFrame m'.mem b = m.cpu ∧
      ∀ x, x < b ∨ b + P_STACKTOP ≤ x → x ≠ k.stackTop - 4 → m'.mem x = m.mem x := by
  intro m'
  have hgate := gate_outer ho
  have hm' : m' = saved w k.stackTop (k.code .switchToUserMode) m.gate :=
    callSave_first (by rw [hgate]; exact hn)
  have hmem : m.gate.mem = pushAll m.mem m.sp0
      [m.cpu.ss, m.cpu.esp, m.cpu.eflags, m.cpu.cs, m.cpu.eip] := by rw [hgate]
  have hesp : m.gate.cpu.esp = m.sp0 - 4 * 5 := by rw [hgate]
  have hheld := saved_held (w := w) (v := k.code .switchToUserMode) hmem hesp hsp
    (by rwa [hsp])
  have hcells := readFrame_outer (r := m.cpu) (by rw [hgate] at hheld; exact hheld)
  have hb : m.gate.cpu.esp - 52 = b := by rw [hesp, hsp, P_STACKTOP]; omega
  have hg : ∃ c : Regs, m.gate = { m with cpu := c, mem := m.gate.mem } ∧
      c.eax = m.cpu.eax ∧ c.ebx = m.cpu.ebx ∧ c.ecx = m.cpu.ecx ∧ c.edx = m.cpu.edx ∧
      c.cs = SELECTOR_KERNEL_CS ∧ c.ss = SELECTOR_KERNEL_DS := by
    rw [hgate]
    exact ⟨_, rfl, rfl, rfl, rfl, rfl, rfl, rfl⟩
  rw [← hgate, ← hm'] at hcells
  refine ⟨?_, hcells.1, ?_⟩
  · rw [hm'] at hcells ⊢
    exact saved_entered hb hcells.2 hg
  · intro x hx hne
    rw [hm']
    exact saved_out hmem hesp hsp (by rwa [hsp]) hne

/-- **FROM THE KERNEL**: its registers are below its stack pointer. -/
theorem enter_inner (ho : ¬ Outer m.cpu.cs) (hss : m.cpu.ss = SELECTOR_KERNEL_DS)
    (hsp : m.cpu.esp = b + 64) (hn : m.nestedInt + 1 ≠ 0) (hroom : 4 ≤ b) :
    let m' := callSave k w m.gate
    Entered w b (b - 4) (k.code .switchToUserModeReenter) m m' ∧
      { readFrame m'.mem b with esp := b + 64, ss := SELECTOR_KERNEL_DS } = m.cpu ∧
      ∀ x, x < b - 4 ∨ m.cpu.esp ≤ x → m'.mem x = m.mem x := by
  intro m'
  have hgate := gate_inner ho
  have hb : m.gate.cpu.esp - 52 = b := by
    rw [hgate]
    show m.cpu.esp - 12 - 52 = b
    omega
  have hm' : m' = saved w b (k.code .switchToUserModeReenter) m.gate := by
    rw [← hb]
    exact callSave_nested (by rw [hgate]; exact hn)
  have hmem : m.gate.mem = pushAll m.mem m.cpu.esp
      [m.cpu.eflags, m.cpu.cs, m.cpu.eip] := by rw [hgate]
  have hesp : m.gate.cpu.esp = m.cpu.esp - 4 * 3 := by rw [hgate]
  have hheld := saved_held (w := w) (v := k.code .switchToUserModeReenter) hmem hesp hsp
    (e := b) (.inl (by omega))
  have hcells := readFrame_inner (r := m.cpu) (by rw [hgate] at hheld; exact hheld)
  have hg : ∃ c : Regs, m.gate = { m with cpu := c, mem := m.gate.mem } ∧
      c.eax = m.cpu.eax ∧ c.ebx = m.cpu.ebx ∧ c.ecx = m.cpu.ecx ∧ c.edx = m.cpu.edx ∧
      c.cs = SELECTOR_KERNEL_CS ∧ c.ss = SELECTOR_KERNEL_DS := by
    rw [hgate]
    exact ⟨_, rfl, rfl, rfl, rfl, rfl, rfl, hss⟩
  rw [← hgate, ← hm'] at hcells
  refine ⟨?_, ?_, ?_⟩
  · rw [hm'] at hcells ⊢
    exact saved_entered hb hcells.2 hg
  · rw [← hsp, ← hss]
    exact hcells.1
  · intro x hx
    rw [hm']
    exact saved_out hmem hesp hsp (by omega) (by omega)

/-! ## What the way out does -/

/-- **TO A PROCESS**: the registers of its stack frame. -/
theorem reenter_outer (ho : Outer (m.mem (m.cpu.esp + 56))) :
    switchToUserModeReenter m =
      { m with cpu := readFrame m.mem m.cpu.esp, nestedInt := m.nestedInt - 1 } := by
  simp only [switchToUserModeReenter, Machine.popad, Machine.pop, Machine.iretd,
    Nat.add_assoc, Nat.reduceAdd, if_pos ho]
  rfl

/-- **TO THE KERNEL**: the registers below the stack pointer it had. -/
theorem reenter_inner (ho : ¬ Outer (m.mem (m.cpu.esp + 56))) :
    switchToUserModeReenter m =
      { m with
        cpu := { readFrame m.mem m.cpu.esp with
          esp := m.cpu.esp + 64, ss := m.cpu.ss }
        nestedInt := m.nestedInt - 1 } := by
  simp only [switchToUserModeReenter, Machine.popad, Machine.pop, Machine.iretd,
    Nat.add_assoc, Nat.reduceAdd, if_neg ho]
  rfl

theorem switchToUserMode_outer (ho : Outer (readFrame m.mem m.procReady).cs) :
    switchToUserMode m =
      { m with
        cpu := readFrame m.mem m.procReady
        ldtr := m.mem (m.procReady + P_LDT_SEL) % 65536
        sp0 := m.procReady + P_STACKTOP
        nestedInt := m.nestedInt - 1 } := by
  rw [switchToUserMode]
  exact reenter_outer ho

end KosKernelEntry
