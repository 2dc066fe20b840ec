import Kos.FlatMemoryProofs
import Mathlib.Data.Int.Init

/-! # The process table

    `struct process` of `include/sys/process.h` with the fields that the
    message-passing code, the memory code and the process manager read, the
    segment descriptors of `kernel/descriptor.c`, `proc_va2la` and the table
    `init_process` leaves behind.

    The table is a total function on `Int`: `proc_table[i]` for an index that
    `InTable` rejects is whatever memory holds there.  A failed `assert`, a
    `panic`, a loop that does not end and an access through a null pointer or
    outside an array all stop the machine (`Halt`). -/

namespace KosKernel

open FlatMemory

/-! ## Constants of `const.h` and `process.h` -/

/-- Of `const.h`: the entries of `proc_table`, and the numbers of the tasks. -/
def NR_TASKS_NATIVE : Int := 5
def NR_PROCS_NATIVE : Int := 4
def NR_PROCS_MAX : Int := 32

def INTERRUPT : Int := -10
def TASK_TTY : Int := 0
def TASK_SYS : Int := 1
def TASK_HD : Int := 2
def TASK_FS : Int := 3
def TASK_PM : Int := 4
def INIT : Int := 5

/-- A RECEIVE from whoever sends. -/
def ANY : Int := NR_TASKS_NATIVE + NR_PROCS_MAX + 10

/-- No process. -/
def NO_TASK : Int := NR_TASKS_NATIVE + NR_PROCS_MAX + 20

/-- The index of a `proc_table` entry. -/
def InTable (pid : Int) : Prop := 0 ≤ pid ∧ pid < NR_TASKS_NATIVE + NR_PROCS_MAX

instance (pid : Int) : Decidable (InTable pid) :=
  inferInstanceAs (Decidable (_ ∧ _))

theorem inTable_iff {pid : Int} : InTable pid ↔ 0 ≤ pid ∧ pid < 37 := Iff.rfl

/-! ## Halting -/

/-- Why the machine stops. -/
inductive Halt where
  | assertionFailure
  | panic
  | spin
  | fault
  deriving DecidableEq, Repr

/-- `assert(exp)`. -/
def assert (c : Prop) [Decidable c] : Except Halt Unit :=
  if c then .ok () else .error .assertionFailure

@[simp] theorem assert_eq_ok {c : Prop} [Decidable c] {u : Unit} :
    assert c = .ok u ↔ c := by
  unfold assert
  by_cases h : c <;> simp [h]

@[simp] theorem bind_eq_ok {α β : Type} {x : Except Halt α}
    {f : α → Except Halt β} {b : β} :
    (x >>= f) = .ok b ↔ ∃ a, x = .ok a ∧ f a = .ok b := by
  cases x with
  | error e =>
      constructor
      · intro h; cases h
      · rintro ⟨a, h, -⟩; cases h
  | ok a =>
      constructor
      · intro h; exact ⟨a, rfl, h⟩
      · rintro ⟨a', h, h'⟩; cases h; exact h'

@[simp] theorem pure_eq_ok {α : Type} {a b : α} :
    (pure a : Except Halt α) = .ok b ↔ a = b :=
  ⟨fun h => Except.ok.inj h, fun h => by rw [h]; rfl⟩

/-! ## Process states -/

/-- The flag bits of `proc_state`. -/
structure ProcState where
  sending : Bool := false
  receiving : Bool := false
  waiting : Bool := false
  hanging : Bool := false
  freeSlot : Bool := false
  deriving DecidableEq, Repr

/-- The states that `proc_state` is set to. -/
def RUNNABLE : ProcState := {}
def SENDING : ProcState := { sending := true }
def RECEIVING : ProcState := { receiving := true }
def FREE_SLOT : ProcState := { freeSlot := true }

/-! ## Segment descriptors -/

/-- `struct gdt_desc`. -/
structure GdtDesc where
  limitLow : BitVec 16
  baseLow : BitVec 16
  baseMid : BitVec 8
  attr1 : BitVec 8
  limitHighAttr2 : BitVec 8
  baseHigh : BitVec 8
  deriving DecidableEq, Repr

/-- Of `protect.h`: what a descriptor says of its segment. -/
def DA_32 : BitVec 16 := 0x4000
def DA_LIMIT_4K : BitVec 16 := 0x8000
def LIMIT_4K_SHIFT : Nat := 12
def DA_C : BitVec 16 := 0x98
def DA_DRW : BitVec 16 := 0x92
def PRIVILEGE_TASK : BitVec 16 := 1
def PRIVILEGE_USER : BitVec 16 := 3

/-- `make_gdt_desc`. -/
def makeGdtDesc (base limit : BitVec 32) (attr : BitVec 16) : GdtDesc where
  limitLow := (limit &&& 0x0FFFF).setWidth 16
  baseLow := (base &&& 0x0FFFF).setWidth 16
  baseMid := ((base >>> 16) &&& 0x0FF).setWidth 8
  attr1 := (attr &&& 0xFF).setWidth 8
  limitHighAttr2 :=
    (((limit >>> 16) &&& 0x0F).setWidth 8) |||
      (((attr >>> 8) &&& 0xF0).setWidth 8)
  baseHigh := ((base >>> 24) &&& 0x0FF).setWidth 8

/-- `gdt_ldt_to_base_addr`. -/
def gdtLdtToBaseAddr (d : GdtDesc) : Addr :=
  (d.baseHigh.setWidth 32 <<< 24) ||| (d.baseMid.setWidth 32 <<< 16) |||
    d.baseLow.setWidth 32

/-- A descriptor gives back the base it was made with. -/
theorem gdtLdtToBaseAddr_makeGdtDesc (base limit : BitVec 32)
    (attr : BitVec 16) :
    gdtLdtToBaseAddr (makeGdtDesc base limit attr) = base := by
  apply BitVec.eq_of_getLsbD_eq
  intro i hi
  have hmask16 : ∀ j < 32, (65535#32).getLsbD j = decide (j < 16) := by decide
  have hmask8 : ∀ j < 32, (255#32).getLsbD j = decide (j < 8) := by decide
  simp only [gdtLdtToBaseAddr, makeGdtDesc, BitVec.getLsbD_or,
    BitVec.getLsbD_shiftLeft, BitVec.getLsbD_setWidth, BitVec.getLsbD_and,
    BitVec.getLsbD_ushiftRight]
  rcases Nat.lt_or_ge i 16 with h16 | h16
  · have h24 : i < 24 := by omega
    simp [h16, h24, hi, hmask16 i hi]
  · rcases Nat.lt_or_ge i 24 with h24 | h24
    · have hlt : i - 16 < 8 := by omega
      have hadd : 16 + (i - 16) = i := by omega
      have hlt' : i - 16 < 32 := by omega
      simp [hmask8 (i - 16) hlt', hlt, hlt', hadd, hi, h24,
        Nat.not_lt.mpr h16]
    · have hlt : i - 24 < 8 := by omega
      have hge : ¬ i - 16 < 8 := by omega
      have hadd : 24 + (i - 24) = i := by omega
      have hlt' : i - 24 < 32 := by omega
      simp [hmask8 (i - 24) hlt', hlt, hlt', hadd, hi, hge,
        Nat.not_lt.mpr h16, Nat.not_lt.mpr h24]

/-! ## `struct process` -/

/-- The fields of `struct process` that messages depend on. -/
structure Proc where
  /-- `ldts[INDEX_LDT_C]` -/
  ldtC : GdtDesc
  /-- `ldts[INDEX_LDT_RW]` -/
  ldtRw : GdtDesc
  procState : ProcState
  pendingMsg : Addr
  /-- a pointer into `proc_table`, as an index; `none` is the null pointer -/
  qPendingProc : Option Int
  pidRecvingfrom : Int
  pidSendingto : Int
  hasIntMsg : Bool
  pParent : Int
  exitStatus : Int
  deriving DecidableEq, Repr

/-- `proc_table`; `get_proc_pid` is the index. -/
abbrev Table := Int → Proc

/-- Assign to the fields of one entry. -/
def Table.upd (T : Table) (pid : Int) (f : Proc → Proc) : Table :=
  fun q => if q = pid then f (T q) else T q

@[simp] theorem upd_self (T : Table) (pid : Int) (f : Proc → Proc) :
    T.upd pid f pid = f (T pid) := by
  simp [Table.upd]

theorem upd_of_ne (T : Table) {pid q : Int} (f : Proc → Proc) (h : q ≠ pid) :
    T.upd pid f q = T q := by
  simp [Table.upd, h]

/-- `proc_va2la`: the linear address of a process's virtual address.  Native
    processes have flat segments. -/
def procVa2la (T : Table) (pid : Int) (va : Addr) : Except Halt Addr := do
  let segBaseAddr := gdtLdtToBaseAddr (T pid).ldtRw
  let la := segBaseAddr + va
  assert (pid < NR_TASKS_NATIVE + NR_PROCS_NATIVE → la = va)
  pure la

theorem procVa2la_eq_ok {T : Table} {pid : Int} {va la : Addr} :
    procVa2la T pid va = .ok la ↔
      la = gdtLdtToBaseAddr (T pid).ldtRw + va ∧
        (pid < NR_TASKS_NATIVE + NR_PROCS_NATIVE →
          gdtLdtToBaseAddr (T pid).ldtRw = 0) := by
  simp only [procVa2la, bind_eq_ok, assert_eq_ok, pure_eq_ok, exists_const,
    BitVec.add_left_eq_self]
  constructor
  · rintro ⟨h, rfl⟩; exact ⟨rfl, h⟩
  · rintro ⟨rfl, h⟩; exact ⟨h, rfl⟩

/-! ## `init_process` -/

/-- The flat descriptors that the loader puts into the GDT. -/
def flatDesc (type priv : BitVec 16) : GdtDesc :=
  { makeGdtDesc 0 0xFFFFF (DA_32 ||| DA_LIMIT_4K ||| type) with
    attr1 := (type ||| (priv <<< 5)).setWidth 8 }

/-- A native entry after `init_process`. -/
def nativeProc (ldtC ldtRw : GdtDesc) : Proc where
  ldtC := ldtC
  ldtRw := ldtRw
  procState := RUNNABLE
  pendingMsg := 0
  qPendingProc := none
  pidRecvingfrom := NO_TASK
  pidSendingto := NO_TASK
  hasIntMsg := false
  pParent := NO_TASK
  exitStatus := 0

/-- An unused entry: zeroed by `init_ldt_desc`, then marked free. -/
def freeProc : Proc where
  ldtC := ⟨0, 0, 0, 0, 0, 0⟩
  ldtRw := ⟨0, 0, 0, 0, 0, 0⟩
  procState := FREE_SLOT
  pendingMsg := 0
  qPendingProc := none
  pidRecvingfrom := 0
  pidSendingto := 0
  hasIntMsg := false
  pParent := 0
  exitStatus := 0

/-- The table after `init_process`: the tasks and the native user processes
    are runnable, the other entries free.  `kTop` is `k_base + k_limit`, and
    `outside` what memory holds around the table. -/
def initProcess (kTop : BitVec 32) (outside : Table) : Table := fun i =>
  if ¬ InTable i then outside i
  else if i ≥ NR_TASKS_NATIVE + NR_PROCS_NATIVE then freeProc
  else if i = INIT then
    nativeProc
      (makeGdtDesc 0 (kTop >>> LIMIT_4K_SHIFT)
        (DA_32 ||| DA_LIMIT_4K ||| DA_C ||| (PRIVILEGE_USER <<< 5)))
      (makeGdtDesc 0 (kTop >>> LIMIT_4K_SHIFT)
        (DA_32 ||| DA_LIMIT_4K ||| DA_DRW ||| (PRIVILEGE_USER <<< 5)))
  else
    let priv := if i < NR_TASKS_NATIVE then PRIVILEGE_TASK else PRIVILEGE_USER
    nativeProc (flatDesc DA_C priv) (flatDesc DA_DRW priv)

/-- After `init_process` an entry is free or runs, holds no queue, no message
    and no interrupt. -/
theorem initProcess_idle (kTop : BitVec 32) (outside : Table) {i : Int}
    (hi : InTable i) :
    ((initProcess kTop outside i).procState = RUNNABLE ∨
        (initProcess kTop outside i).procState = FREE_SLOT) ∧
      (initProcess kTop outside i).qPendingProc = none ∧
      (initProcess kTop outside i).pendingMsg = 0 ∧
      (initProcess kTop outside i).hasIntMsg = false := by
  unfold initProcess
  rw [if_neg (by simpa using hi)]
  split
  · exact ⟨Or.inr rfl, rfl, rfl, rfl⟩
  · split <;> exact ⟨Or.inl rfl, rfl, rfl, rfl⟩

/-- The segments of the native processes start at 0. -/
theorem initProcess_flat (kTop : BitVec 32) (outside : Table) {i : Int}
    (hi : InTable i) (hnat : i < NR_TASKS_NATIVE + NR_PROCS_NATIVE) :
    gdtLdtToBaseAddr (initProcess kTop outside i).ldtRw = 0 := by
  unfold initProcess
  rw [if_neg (by simpa using hi), if_neg (by omega)]
  split
  · exact gdtLdtToBaseAddr_makeGdtDesc _ _ _
  · exact gdtLdtToBaseAddr_makeGdtDesc 0 0xFFFFF
      (DA_32 ||| DA_LIMIT_4K ||| DA_DRW)

/-- Nobody sends at boot. -/
theorem initProcess_sending (kTop : BitVec 32) (outside : Table) {i : Int}
    (hi : InTable i) :
    (initProcess kTop outside i).procState.sending = false := by
  rcases (initProcess_idle kTop outside hi).1 with hst | hst <;> rw [hst] <;>
    rfl

end KosKernel
