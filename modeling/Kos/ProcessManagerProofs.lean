import Kos.IpcProofs
import Mathlib.Data.List.Basic
import Mathlib.Logic.Relation

/-! # The process manager

    `do_fork`, `do_exit`, `do_wait` and `proc_cleanup` of `task/pm/`.  While PM
    is inside an IPC call all other processes go on: `World` says what their
    kernel calls, and PM's own, make of the table in PM's n-th call.

    * kernel calls leave alone what PM reads and writes (`view_step`), so the
      handlers can be followed statement by statement (`Inv`);
    * between requests a forked process has a living parent, nobody is WAITING
      with a HANGING child, and the exit statuses of a slot are those reported
      plus the one of a HANGING process (`bookkeeping`). -/

namespace KosProcessManager

open FlatMemory KosKernel KosIpc GuardedRun Relation

/-- Where the memory of the processes starts, and the share of each. -/
def PROC_BASE : Int := 0xA00000
def PROC_SIZE : Int := 0x100000

/-! ## The state of PM -/

/-- A message to a parent: `PID`, `STATUS` and the receiver. -/
structure Report where
  child : Int
  status : Int
  receiver : Int
  deriving DecidableEq, Repr

/-- A request on its way to PM. -/
inductive Request where
  | fork
  | exit (status : Int)
  | wait
  deriving DecidableEq, Repr

/-- The table with the number of IPC calls PM has made, the reports it has
    sent, the exits it has handled and the requests on their way. -/
structure Pm where
  table : Table
  ipcs : Nat
  reports : List Report
  exits : List (Int × Int)
  inbox : Int → Option Request

/-- What becomes of the table during PM's n-th IPC call. -/
abbrev World := Nat → Table → Table

/-- Only kernel calls happen during an IPC call. -/
def KernelOnly (world : World) : Prop :=
  ∀ n T, ReflTransGen (fun T T' => ∃ e, KosIpc.Step T e T') T (world n T)

/-- A message of PM, at which the other processes may go on. -/
def Pm.ipc (world : World) (s : Pm) : Pm :=
  { s with table := world s.ipcs s.table, ipcs := s.ipcs + 1 }

/-- Assign to the fields of one entry. -/
def Pm.upd (s : Pm) (pid : Int) (f : Proc → Proc) : Pm :=
  { s with table := s.table.upd pid f }

/-- `p->proc_state |= WAITING`, or the bit cleared. -/
def setWaiting (b : Bool) (p : Proc) : Proc :=
  { p with procState := { p.procState with waiting := b } }

/-- `p->proc_state |= HANGING`. -/
def setHanging (p : Proc) : Proc :=
  { p with procState := { p.procState with hanging := true } }

/-- `p->proc_state = FREE_SLOT`. -/
def setFree (p : Proc) : Proc := { p with procState := FREE_SLOT }

/-- `p->p_parent = parent`. -/
def setParent (parent : Int) (p : Proc) : Proc := { p with pParent := parent }

/-! ## The handlers -/

/-- `proc_cleanup`. -/
def procCleanup (world : World) (s : Pm) (pid : Int) : Pm :=
  let msg2parent : Report :=
    { child := pid
      status := (s.table pid).exitStatus
      receiver := (s.table pid).pParent }
  let s := { s with reports := s.reports ++ [msg2parent] }.ipc world
  s.upd pid setFree

/-- The body of the loop in `do_exit` that makes INIT the parent of the
    children. -/
def adopt (world : World) (currentPid : Int) (s : Pm) (i : Int) : Pm :=
  if (s.table i).pParent = currentPid then
    let s := s.upd i (setParent INIT)
    if (s.table INIT).procState.waiting = true ∧
        (s.table i).procState.hanging = true then
      procCleanup world (s.upd INIT (setWaiting false)) i
    else s
  else s

/-- `n` rounds of the loop, from entry `i`. -/
def adoptAll (world : World) (currentPid : Int) : Nat → Int → Pm → Pm
  | 0, _, s => s
  | n + 1, i, s =>
      adoptAll world currentPid n (i + 1) (adopt world currentPid s i)

/-- The report to a parent that waits, or the HANGING bit. -/
def reportOrHang (world : World) (currentPid parentPid : Int) (s : Pm) : Pm :=
  if (s.table parentPid).procState.waiting = true then
    procCleanup world (s.upd parentPid (setWaiting false)) currentPid
  else s.upd currentPid setHanging

/-- `do_exit`. -/
def doExit (world : World) (s : Pm) (currentPid status : Int) : Pm :=
  let parentPid := (s.table currentPid).pParent
  let s := s.ipc world
  let s := s.upd currentPid fun p => { p with exitStatus := status }
  let s := { s with exits := s.exits ++ [(currentPid, status)] }
  let s := reportOrHang world currentPid parentPid s
  adoptAll world currentPid 37 0 s

/-- `n` rounds of the loop in `do_wait`, from entry `i`. -/
def waitLoop (world : World) (pid : Int) : Nat → Int → Nat → Pm → Pm
  | 0, _, hasChildren, s =>
      if hasChildren ≠ 0 then s.upd pid (setWaiting true)
      else s.ipc world
  | n + 1, i, hasChildren, s =>
      if (s.table i).pParent = pid then
        if (s.table i).procState.hanging = true then procCleanup world s i
        else waitLoop world pid n (i + 1) (hasChildren + 1) s
      else waitLoop world pid n (i + 1) hasChildren s

/-- `do_wait`. -/
def doWait (world : World) (s : Pm) (pid : Int) : Pm :=
  waitLoop world pid 37 0 0 s

/-- The search for a free slot in `do_fork`. -/
def findFree (T : Table) : Nat → Int → Option Int
  | 0, _ => none
  | n + 1, i =>
      if (T i).procState = FREE_SLOT then some i else findFree T n (i + 1)

/-- The limit in a descriptor, put together with `reassembly`. -/
def segLimit (d : GdtDesc) : BitVec 32 :=
  ((d.limitHighAttr2 &&& 0xF).setWidth 32 <<< 16) + d.limitLow.setWidth 32

/-- `(limit + 1)` units of the descriptor's granularity. -/
def segSize (limit : BitVec 32) (d : GdtDesc) : BitVec 32 :=
  (limit + 1) * if d.limitHighAttr2 &&& 0x80 ≠ 0 then 4096 else 1

/-- `alloc_mem`. -/
def allocMem (memorySize pid memsize : Int) : Except Halt Int := do
  assert (pid ≥ NR_TASKS_NATIVE + NR_PROCS_NATIVE)
  if memsize > PROC_SIZE then .error .panic
  else do
    let base := PROC_BASE + (pid - (NR_TASKS_NATIVE + NR_PROCS_NATIVE)) *
      PROC_SIZE
    if base + memsize ≥ memorySize then .error .panic
    else pure base

/-- The segments of the parent, checked, and the memory for the child.  The
    second size is computed with the limit of the text segment. -/
def childBase (memorySize : Int) (parent : Proc) (childPid : Int) :
    Except Halt Int := do
  let callerTLimit := segLimit parent.ldtC
  let callerTSize := segSize callerTLimit parent.ldtC
  let callerDSSize := segSize callerTLimit parent.ldtRw
  assert (gdtLdtToBaseAddr parent.ldtC = gdtLdtToBaseAddr parent.ldtRw ∧
    callerTLimit = segLimit parent.ldtRw ∧ callerTSize = callerDSSize)
  allocMem memorySize childPid callerTSize.toInt

/-- The child's entry: the parent's, with its own parent and descriptors. -/
def childProc (parentPid base : Int) (parent : Proc) : Proc :=
  let desc (type : BitVec 16) := makeGdtDesc (BitVec.ofInt 32 base)
    (BitVec.ofInt 32 (PROC_SIZE - 1) >>> LIMIT_4K_SHIFT)
    (DA_LIMIT_4K ||| DA_32 ||| type ||| (PRIVILEGE_USER <<< 5))
  { parent with pParent := parentPid, ldtC := desc DA_C, ldtRw := desc DA_DRW }

/-- `do_fork`: the new pid, or `none` for -1. -/
def doFork (world : World) (memorySize : Int) (s : Pm) (parentPid : Int) :
    Except Halt (Pm × Option Int) :=
  match findFree s.table 37 0 with
  | none => pure (s, none)
  | some childPid => do
      let base ← childBase memorySize (s.table parentPid) childPid
      let s := s.upd childPid fun _ =>
        childProc parentPid base (s.table parentPid)
      -- to FS, and the birth message to the child
      let s := (s.ipc world).ipc world
      pure (s, some childPid)

/-- One round of `task_pm`: the request of `src` and, where there is one, the
    reply. -/
def taskPm (world : World) (memorySize : Int) (s : Pm) (src : Int) :
    Request → Except Halt Pm
  | .fork => do
      let res ← doFork world memorySize s src
      pure (res.1.ipc world)
  | .exit status => pure (doExit world s src status)
  | .wait => pure (doWait world s src)

/-! ## Runs -/

/-- What may happen next. -/
inductive Event where
  | kernel (e : KosIpc.Event)
  | issue (pid : Int) (req : Request)
  | handle (pid : Int) (req : Request)

/-- A process that is free, HANGING or WAITING does not run, so it issues no
    request; only forked processes exit. -/
structure MayIssue (T : Table) (pid : Int) (req : Request) : Prop where
  inTable : InTable pid
  freeSlot : (T pid).procState.freeSlot = false
  hanging : (T pid).procState.hanging = false
  waiting : (T pid).procState.waiting = false
  forked : ∀ status, req = .exit status → NR_TASKS_NATIVE + NR_PROCS_NATIVE ≤ pid

/-- A step of the kernel, of a process or of PM. -/
inductive Step : Pm → Event → Pm → Prop where
  | kernel {s : Pm} {e : KosIpc.Event} {T' : Table}
      (hcall : KosIpc.Step s.table e T') :
      Step s (.kernel e) { s with table := T' }
  | issue {s : Pm} {p : Int} {req : Request} (hidle : s.inbox p = none)
      (hmay : MayIssue s.table p req) :
      Step s (.issue p req)
        { s with inbox := fun q => if q = p then some req else s.inbox q }
  | handle {world : World} {memorySize : Int} {s s' : Pm} {p : Int}
      {req : Request} (hreq : s.inbox p = some req) (hworld : KernelOnly world)
      (hcall : taskPm world memorySize
        { s with inbox := fun q => if q = p then none else s.inbox q } p req =
        .ok s') :
      Step s (.handle p req) s'

/-- Boot: no request has been made. -/
structure Boot (s : Pm) : Prop where
  table : Booted s.table
  reports : s.reports = []
  exits : s.exits = []
  inbox : ∀ p, s.inbox p = none

/-! ## What PM sees of an entry -/

/-- The fields that PM reads and writes and the kernel calls do not. -/
structure View where
  waiting : Bool
  hanging : Bool
  freeSlot : Bool
  pParent : Int
  exitStatus : Int

/-- What PM looks at in an entry. -/
def view (p : Proc) : View where
  waiting := p.procState.waiting
  hanging := p.procState.hanging
  freeSlot := p.procState.freeSlot
  pParent := p.pParent
  exitStatus := p.exitStatus

/-- What PM sees has nothing to do with the message passing. -/
theorem view_of_rest {p q : Proc} (h : rest p = rest q) : view p = view q := by
  show view (rest p) = view (rest q)
  rw [h]

/-- A kernel call changes nothing that PM sees. -/
theorem view_step {T T' : Table} {e : KosIpc.Event}
    (hstep : KosIpc.Step T e T') {p : Int} (hp : InTable p) :
    view (T' p) = view (T p) := view_of_rest (rest_step hstep hp)

/-- What holds across every kernel call holds across an IPC call of PM. -/
theorem rest_world {world : World} (h : KernelOnly world) (n : Nat)
    (T : Table) {p : Int} (hp : InTable p) :
    rest (world n T p) = rest (T p) := by
  have hrun := h n T
  generalize world n T = T' at hrun
  induction hrun with
  | refl => rfl
  | tail _ hstep ih =>
      obtain ⟨e, he⟩ := hstep
      rw [rest_step he hp, ih]

/-- The other processes change nothing that PM looks at. -/
theorem view_world {world : World} (h : KernelOnly world) (n : Nat)
    (T : Table) {p : Int} (hp : InTable p) :
    view (world n T p) = view (T p) := view_of_rest (rest_world h n T hp)

/-- What PM sees of the entry `q`. -/
def Pm.see (s : Pm) (q : Int) : View := view (s.table q)

/-- Nor does a message. -/
theorem see_ipc {world : World} (h : KernelOnly world) (s : Pm) {q : Int}
    (hq : InTable q) : (s.ipc world).see q = s.see q :=
  view_world h s.ipcs s.table hq

/-- What PM sees of the entry that changes. -/
theorem see_upd_self (s : Pm) (p : Int) (f : Proc → Proc) :
    (s.upd p f).see p = view (f (s.table p)) :=
  congrArg view (upd_self s.table p f)

/-- And of the others. -/
theorem see_upd_of_ne (s : Pm) {p q : Int} (f : Proc → Proc) (h : q ≠ p) :
    (s.upd p f).see q = s.see q :=
  congrArg view (upd_of_ne s.table f h)

/-- What `f` leaves alone in an entry. -/
theorem see_upd_field {β : Type} (g : View → β) (f : Proc → Proc)
    (hf : ∀ x, g (view (f x)) = g (view x)) (s : Pm) (p q : Int) :
    g ((s.upd p f).see q) = g (s.see q) := by
  by_cases hq : q = p
  · rw [hq, see_upd_self]
    exact hf _
  · rw [see_upd_of_ne s f hq]

/-! ## The invariant -/

/-- The statuses that were reported for a child. -/
def reportsOf (s : Pm) (q : Int) : List Int :=
  (s.reports.filter fun ρ => ρ.child = q).map Report.status

/-- The statuses it has exited with. -/
def exitsOf (s : Pm) (q : Int) : List Int :=
  (s.exits.filter fun x => x.1 = q).map Prod.snd

/-- The exit status that is still to be reported. -/
def owed (s : Pm) (dying : Option Int) (q : Int) : List Int :=
  if (s.see q).hanging = true ∨ dying = some q then [(s.see q).exitStatus]
  else []

/-- A process that can be a parent. -/
def Alive (s : Pm) (q : Int) : Prop :=
  (s.see q).freeSlot = false ∧ (s.see q).hanging = false

/-- The books of PM.  Inside `do_exit` the process `gone` has left, its
    children from entry `k` on have not been adopted yet, and the status of
    `dying` has neither been reported nor been marked HANGING. -/
structure Inv (s : Pm) (gone : Option Int) (k : Int) (dying : Option Int) :
    Prop where
  native : ∀ q, InTable q → q < NR_TASKS_NATIVE + NR_PROCS_NATIVE →
    Alive s q ∧ (s.see q).pParent = NO_TASK
  parent : ∀ q, InTable q → NR_TASKS_NATIVE + NR_PROCS_NATIVE ≤ q →
    (s.see q).freeSlot = false →
    (s.see q).pParent ≠ q ∧ InTable (s.see q).pParent ∧
      ((gone = some (s.see q).pParent ∧ k ≤ q) ∨ Alive s (s.see q).pParent)
  noWait : ∀ q, InTable q → (s.see q).hanging = true →
    InTable (s.see q).pParent → (s.see (s.see q).pParent).waiting = false
  free : ∀ q, InTable q → (s.see q).freeSlot = true →
    (s.see q).hanging = false ∧ (s.see q).waiting = false
  trace : ∀ q, InTable q → exitsOf s q = reportsOf s q ++ owed s dying q
  inbox : ∀ q req, s.inbox q = some req → MayIssue s.table q req

/-- The reports a stretch of a handler has added, each to the parent that
    `par` names; a slot has become free by such a report only. -/
def Advances (par : Int → Int) (s s' : Pm) : Prop :=
  ∃ new, s'.reports = s.reports ++ new ∧
    (∀ ρ ∈ new, ρ.receiver = par ρ.child) ∧
    ∀ q, InTable q → (s'.see q).freeSlot = true →
      (s.see q).freeSlot = true ∨ ∃ ρ ∈ new, ρ.child = q

/-- A step that frees no entry. -/
theorem advances_of_free {par : Int → Int} {s s' : Pm}
    (hrep : s'.reports = s.reports)
    (hfree : ∀ q, InTable q → (s'.see q).freeSlot = true →
      (s.see q).freeSlot = true) : Advances par s s' := by
  refine ⟨[], by rw [hrep, List.append_nil], ?_, fun q hq hf =>
    Or.inl (hfree q hq hf)⟩
  intro ρ hρ
  cases hρ

/-- Two steps. -/
theorem advances_trans {par : Int → Int} {s s' s'' : Pm}
    (h : Advances par s s') (h' : Advances par s' s'') :
    Advances par s s'' := by
  obtain ⟨new, hnew, hpar, hfree⟩ := h
  obtain ⟨new', hnew', hpar', hfree'⟩ := h'
  refine ⟨new ++ new', by rw [hnew', hnew, List.append_assoc], ?_, ?_⟩
  · intro ρ hρ
    rcases List.mem_append.mp hρ with hρ | hρ
    · exact hpar ρ hρ
    · exact hpar' ρ hρ
  · intro q hq hf
    rcases hfree' q hq hf with hf' | ⟨ρ, hρ, hc⟩
    · rcases hfree q hq hf' with hf'' | ⟨ρ, hρ, hc⟩
      · exact Or.inl hf''
      · exact Or.inr ⟨ρ, List.mem_append_left _ hρ, hc⟩
    · exact Or.inr ⟨ρ, List.mem_append_right _ hρ, hc⟩

variable {world : World} {s s' : Pm} {gone dying : Option Int} {k : Int}
  {par : Int → Int}

/-- What a process may ask depends on its entry. -/
theorem mayIssue_congr {p : Int} {req : Request}
    (hsee : s'.see p = s.see p) (h : MayIssue s.table p req) :
    MayIssue s'.table p req :=
  ⟨h.inTable, (congrArg View.freeSlot hsee).trans h.freeSlot,
    (congrArg View.hanging hsee).trans h.hanging,
    (congrArg View.waiting hsee).trans h.waiting, h.forked⟩

/-- The books are about what PM sees, and its lists. -/
theorem inv_congr (h : Inv s gone k dying)
    (hsee : ∀ q, InTable q → s'.see q = s.see q)
    (hrep : s'.reports = s.reports) (hex : s'.exits = s.exits)
    (hin : s'.inbox = s.inbox) : Inv s' gone k dying := by
  have halive : ∀ q, InTable q → Alive s q → Alive s' q := by
    intro q hq ha
    rw [Alive, hsee q hq]
    exact ha
  constructor
  case native =>
    intro q hq hlt
    obtain ⟨ha, hpar⟩ := h.native q hq hlt
    exact ⟨halive q hq ha, by rw [hsee q hq, hpar]⟩
  case parent =>
    intro q hq hge hf
    rw [hsee q hq] at hf ⊢
    obtain ⟨hne, hpt, hpar⟩ := h.parent q hq hge hf
    exact ⟨hne, hpt, hpar.imp_right (halive _ hpt)⟩
  case noWait =>
    intro q hq hh hpt
    rw [hsee q hq] at hh hpt ⊢
    rw [hsee _ hpt]
    exact h.noWait q hq hh hpt
  case free =>
    intro q hq hf
    rw [hsee q hq] at hf ⊢
    exact h.free q hq hf
  case trace =>
    intro q hq
    have htr := h.trace q hq
    rw [exitsOf, reportsOf, owed] at htr ⊢
    rw [hsee q hq, hrep, hex]
    exact htr
  case inbox =>
    intro q req hreq
    rw [hin] at hreq
    have hmay := h.inbox q req hreq
    exact mayIssue_congr (hsee q hmay.inTable) hmay

/-- A message keeps the invariant. -/
theorem inv_ipc (hw : KernelOnly world) (h : Inv s gone k dying) :
    Inv (s.ipc world) gone k dying :=
  inv_congr h (fun _ hq => see_ipc hw s hq) rfl rfl rfl

/-- And reports nothing. -/
theorem advances_ipc (hw : KernelOnly world) (s : Pm) :
    Advances par s (s.ipc world) :=
  advances_of_free rfl fun q hq hf => by rwa [see_ipc hw s hq] at hf

/-- A slot update that frees nothing. -/
theorem advances_upd (s : Pm) {p : Int} {f : Proc → Proc}
    (hf : (view (f (s.table p))).freeSlot = true →
      (s.see p).freeSlot = true) : Advances par s (s.upd p f) := by
  refine advances_of_free rfl fun q _ hfree => ?_
  by_cases hqp : q = p
  · subst hqp
    rw [see_upd_self] at hfree
    exact hf hfree
  · rwa [see_upd_of_ne s f hqp] at hfree

/-- Clearing a WAITING bit. -/
theorem inv_stopWaiting (h : Inv s gone k dying) {p : Int} :
    Inv (s.upd p (setWaiting false)) gone k dying := by
  have hhang : ∀ q, ((s.upd p (setWaiting false)).see q).hanging =
      (s.see q).hanging :=
    see_upd_field View.hanging (setWaiting false) (fun _ => rfl) s p
  have hfree : ∀ q, ((s.upd p (setWaiting false)).see q).freeSlot =
      (s.see q).freeSlot :=
    see_upd_field View.freeSlot (setWaiting false) (fun _ => rfl) s p
  have hpar : ∀ q, ((s.upd p (setWaiting false)).see q).pParent =
      (s.see q).pParent :=
    see_upd_field View.pParent (setWaiting false) (fun _ => rfl) s p
  have hst : ∀ q, ((s.upd p (setWaiting false)).see q).exitStatus =
      (s.see q).exitStatus :=
    see_upd_field View.exitStatus (setWaiting false) (fun _ => rfl) s p
  have hwait : ∀ q, (s.see q).waiting = false →
      ((s.upd p (setWaiting false)).see q).waiting = false := by
    intro q hq
    by_cases hqp : q = p
    · rw [hqp, see_upd_self]
      rfl
    · rw [see_upd_of_ne s _ hqp]
      exact hq
  have halive : ∀ q, Alive (s.upd p (setWaiting false)) q ↔ Alive s q := by
    intro q; rw [Alive, Alive, hfree, hhang]
  constructor
  case native =>
    intro q hq hlt
    rw [halive, hpar]
    exact h.native q hq hlt
  case parent =>
    intro q hq hge hf
    rw [hfree] at hf
    rw [hpar, halive]
    exact h.parent q hq hge hf
  case noWait =>
    intro q hq hh hpt
    rw [hhang] at hh
    rw [hpar] at hpt ⊢
    exact hwait _ (h.noWait q hq hh hpt)
  case free =>
    intro q hq hf
    rw [hfree] at hf
    rw [hhang]
    exact ⟨(h.free q hq hf).1, hwait q (h.free q hq hf).2⟩
  case trace =>
    intro q hq
    have htr := h.trace q hq
    rw [owed] at htr ⊢
    rw [hhang, hst]
    exact htr
  case inbox =>
    intro q req hreq
    have hmay := h.inbox q req hreq
    exact ⟨hmay.inTable, (hfree q).trans hmay.freeSlot,
      (hhang q).trans hmay.hanging, hwait q hmay.waiting, hmay.forked⟩

/-- **CLEANUP**: the report pays what is owed, and the slot becomes free. -/
theorem inv_procCleanup (hw : KernelOnly world) (h : Inv s gone k dying)
    {c : Int} (hc : InTable c) (hforked : NR_TASKS_NATIVE + NR_PROCS_NATIVE ≤ c)
    (howed : (s.see c).hanging = true ∨ dying = some c)
    (hdying : dying = none ∨ dying = some c)
    (hinbox : s.inbox c = none)
    (hchildren : ∀ q, InTable q → NR_TASKS_NATIVE + NR_PROCS_NATIVE ≤ q →
      (s.see q).freeSlot = false → (s.see q).pParent = c →
      gone = some c ∧ k ≤ q) :
    Inv (procCleanup world s c) gone k none := by
  have hself : (procCleanup world s c).see c =
      { s.see c with waiting := false, hanging := false, freeSlot := true } := by
    have hipc := see_ipc hw { s with reports := s.reports ++
      [⟨c, (s.table c).exitStatus, (s.table c).pParent⟩] } hc
    have hpar := congrArg View.pParent hipc
    have hst := congrArg View.exitStatus hipc
    rw [procCleanup, see_upd_self]
    simp only [Pm.see, view] at hpar hst ⊢
    rw [setFree, hpar, hst]
    rfl
  have hother : ∀ q, InTable q → q ≠ c →
      (procCleanup world s c).see q = s.see q := by
    intro q hq hqc
    rw [procCleanup, see_upd_of_ne _ _ hqc, see_ipc hw _ hq]
    rfl
  constructor
  case native =>
    intro q hq hlt
    have hqc : q ≠ c := by omega
    rw [Alive, hother q hq hqc]
    exact h.native q hq hlt
  case parent =>
    intro q hq hge hf
    have hqc : q ≠ c := by
      rintro rfl
      rw [hself] at hf
      cases hf
    rw [hother q hq hqc] at hf ⊢
    obtain ⟨hne, hpt, hpar⟩ := h.parent q hq hge hf
    refine ⟨hne, hpt, ?_⟩
    -- the children of `c` are those that are still to be adopted
    by_cases hpc : (s.see q).pParent = c
    · rw [hpc]
      exact Or.inl (hchildren q hq hge hf hpc)
    · rw [Alive, hother _ hpt hpc]
      exact hpar
  case noWait =>
    intro q hq hh hpt
    have hqc : q ≠ c := by
      rintro rfl
      rw [hself] at hh
      cases hh
    rw [hother q hq hqc] at hh hpt ⊢
    by_cases hpc : (s.see q).pParent = c
    · rw [hpc, hself]
    · rw [hother _ hpt hpc]
      exact h.noWait q hq hh hpt
  case free =>
    intro q hq hf
    by_cases hqc : q = c
    · rw [hqc, hself]
      exact ⟨rfl, rfl⟩
    · rw [hother q hq hqc] at hf ⊢
      exact h.free q hq hf
  case trace =>
    intro q hq
    have htr := h.trace q hq
    -- the report of `c` pays what it owes
    have hrep : reportsOf (procCleanup world s c) q =
        reportsOf s q ++ if c = q then [(s.see c).exitStatus] else [] := by
      simp only [reportsOf, procCleanup, Pm.upd, Pm.ipc, List.filter_append,
        List.map_append]
      by_cases hcq : c = q <;> simp [hcq, Pm.see, view]
    have hex : exitsOf (procCleanup world s c) q = exitsOf s q := rfl
    rw [hex, hrep, htr]
    by_cases hqc : q = c
    · subst hqc
      have hpaid : owed (procCleanup world s q) none q = [] := by
        rw [owed, hself]
        simp
      rw [hpaid, owed, if_pos howed, if_pos rfl, List.append_nil]
    · have hcq : c ≠ q := Ne.symm hqc
      have hdq : dying ≠ some q := by
        rcases hdying with hd | hd <;> rw [hd]
        · simp
        · simpa using hcq
      rw [if_neg hcq, List.append_nil, owed, owed, hother q hq hqc]
      simp [hdq]
  case inbox =>
    intro q req hreq
    have hreq' : s.inbox q = some req := hreq
    have hqc : q ≠ c := by
      rintro rfl
      rw [hinbox] at hreq'
      cases hreq'
    have hmay := h.inbox q req hreq'
    exact mayIssue_congr (hother q hmay.inTable hqc) hmay

/-- `proc_cleanup` leaves the parents. -/
theorem pParent_procCleanup (hw : KernelOnly world) {c q : Int}
    (hq : InTable q) :
    ((procCleanup world s c).see q).pParent = (s.see q).pParent := by
  have hipc := congrArg View.pParent (see_ipc hw { s with reports :=
    s.reports ++ [⟨c, (s.table c).exitStatus, (s.table c).pParent⟩] } hq)
  refine Eq.trans ?_ hipc
  by_cases hqc : q = c
  · subst hqc
    rw [procCleanup, see_upd_self]
    rfl
  · rw [procCleanup, see_upd_of_ne _ _ hqc]

/-- It reports the child that it frees. -/
theorem advances_procCleanup (hw : KernelOnly world) (s : Pm) {c : Int}
    (hpar : (s.see c).pParent = par c) :
    Advances par s (procCleanup world s c) := by
  refine ⟨[⟨c, (s.table c).exitStatus, (s.table c).pParent⟩], rfl, ?_, ?_⟩
  · intro ρ hρ
    obtain rfl := List.mem_singleton.mp hρ
    exact hpar
  · intro q hq hf
    by_cases hqc : q = c
    · exact Or.inr ⟨_, List.mem_singleton_self _, hqc.symm⟩
    · rw [procCleanup, see_upd_of_ne _ _ hqc, see_ipc hw _ hq] at hf
      exact Or.inl hf

/-! ## `do_exit` -/

/-- An adopted or departed parent asks less of the books. -/
theorem inv_weaken (h : Inv s none k dying) (c k' : Int) :
    Inv s (some c) k' dying :=
  { h with
    parent := fun q hq hge hf => by
      obtain ⟨hne, hpt, hgone | ha⟩ := h.parent q hq hge hf
      · cases hgone.1
      · exact ⟨hne, hpt, Or.inr ha⟩ }

/-- The exit status is set and the exit recorded. -/
theorem inv_setStatus (h : Inv s none k none) {c status : Int}
    (hc : InTable c) (hidle : (s.see c).hanging = false) :
    Inv { s.upd c (fun p => { p with exitStatus := status }) with
      exits := s.exits ++ [(c, status)] } none k (some c) := by
  let set : Proc → Proc := fun p => { p with exitStatus := status }
  let s' : Pm := { s.upd c set with exits := s.exits ++ [(c, status)] }
  have hself : s'.see c = { s.see c with exitStatus := status } :=
    see_upd_self s c _
  have hother : ∀ q, q ≠ c → s'.see q = s.see q :=
    fun q hq => see_upd_of_ne s _ hq
  have hflags : ∀ q, (s'.see q).hanging = (s.see q).hanging ∧
      (s'.see q).freeSlot = (s.see q).freeSlot ∧
      (s'.see q).waiting = (s.see q).waiting ∧
      (s'.see q).pParent = (s.see q).pParent := fun q =>
    ⟨see_upd_field View.hanging set (fun _ => rfl) s c q,
      see_upd_field View.freeSlot set (fun _ => rfl) s c q,
      see_upd_field View.waiting set (fun _ => rfl) s c q,
      see_upd_field View.pParent set (fun _ => rfl) s c q⟩
  have halive : ∀ q, Alive s' q ↔ Alive s q := by
    intro q
    rw [Alive, Alive, (hflags q).1, (hflags q).2.1]
  constructor
  case native =>
    intro q hq hlt
    rw [halive, (hflags q).2.2.2]
    exact h.native q hq hlt
  case parent =>
    intro q hq hge hf
    rw [(hflags q).2.1] at hf
    rw [(hflags q).2.2.2, halive]
    exact h.parent q hq hge hf
  case noWait =>
    intro q hq hh hpt
    rw [(hflags q).1] at hh
    rw [(hflags q).2.2.2] at hpt ⊢
    rw [(hflags _).2.2.1]
    exact h.noWait q hq hh hpt
  case free =>
    intro q hq hf
    rw [(hflags q).2.1] at hf
    rw [(hflags q).1, (hflags q).2.2.1]
    exact h.free q hq hf
  case trace =>
    intro q hq
    have htr := h.trace q hq
    -- the exit is recorded, and owed from now on
    have hex : exitsOf s' q =
        exitsOf s q ++ if c = q then [status] else [] := by
      simp only [exitsOf, s', List.filter_append, List.map_append]
      by_cases hcq : c = q <;> simp [hcq]
    have hrep : reportsOf s' q = reportsOf s q := rfl
    rw [hex, hrep, htr]
    by_cases hqc : q = c
    · subst hqc
      have hold : owed s none q = [] := by
        rw [owed, hidle]
        simp
      rw [hold, owed, if_pos (Or.inr rfl), hself, if_pos rfl, List.append_nil]
    · have hcq : c ≠ q := Ne.symm hqc
      rw [if_neg hcq, List.append_nil, owed, owed, hother q hqc]
      simp [hcq]
  case inbox =>
    intro q req hreq
    have hmay := h.inbox q req hreq
    obtain ⟨hh, hf, hw, -⟩ := hflags q
    exact ⟨hmay.inTable, hf.trans hmay.freeSlot, hh.trans hmay.hanging,
      hw.trans hmay.waiting, hmay.forked⟩

/-- The HANGING bit is set instead of a report. -/
theorem inv_setHanging {c : Int} (h : Inv s (some c) 0 (some c))
    (hc : InTable c) (hforked : NR_TASKS_NATIVE + NR_PROCS_NATIVE ≤ c)
    (hfree : (s.see c).freeSlot = false) (hinbox : s.inbox c = none)
    (hpar : (s.see (s.see c).pParent).waiting = false) :
    Inv (s.upd c setHanging) (some c) 0 none := by
  have hself : (s.upd c setHanging).see c = { s.see c with hanging := true } :=
    see_upd_self s c _
  have hother : ∀ q, q ≠ c → (s.upd c setHanging).see q = s.see q :=
    fun q hq => see_upd_of_ne s _ hq
  have hflags : ∀ q, ((s.upd c setHanging).see q).waiting =
        (s.see q).waiting ∧
      ((s.upd c setHanging).see q).pParent = (s.see q).pParent ∧
      ((s.upd c setHanging).see q).freeSlot = (s.see q).freeSlot := fun q =>
    ⟨see_upd_field View.waiting setHanging (fun _ => rfl) s c q,
      see_upd_field View.pParent setHanging (fun _ => rfl) s c q,
      see_upd_field View.freeSlot setHanging (fun _ => rfl) s c q⟩
  constructor
  case native =>
    intro q hq hlt
    have hqc : q ≠ c := by omega
    rw [Alive, hother q hqc]
    exact h.native q hq hlt
  case parent =>
    intro q hq hge hf
    rw [(hflags q).2.2] at hf
    rw [(hflags q).2.1]
    obtain ⟨hne, hpt, hpar⟩ := h.parent q hq hge hf
    refine ⟨hne, hpt, ?_⟩
    -- the children of `c` have not been adopted
    by_cases hpc : (s.see q).pParent = c
    · exact Or.inl ⟨by rw [hpc], (inTable_iff.mp hq).1⟩
    · rw [Alive, hother _ hpc]
      exact hpar
  case noWait =>
    intro q hq hh hpt
    rw [(hflags q).2.1] at hpt ⊢
    rw [(hflags _).1]
    by_cases hqc : q = c
    · rw [hqc]
      exact hpar
    · rw [hother q hqc] at hh
      exact h.noWait q hq hh hpt
  case free =>
    intro q hq hf
    rw [(hflags q).2.2] at hf
    by_cases hqc : q = c
    · rw [hqc, hfree] at hf
      cases hf
    · rw [hother q hqc]
      exact h.free q hq hf
  case trace =>
    intro q hq
    have htr := h.trace q hq
    -- it owes its status as a HANGING process now
    have hown : owed (s.upd c setHanging) none q = owed s (some c) q := by
      by_cases hqc : q = c
      · rw [hqc, owed, owed, hself, if_pos (Or.inl rfl), if_pos (Or.inr rfl)]
      · have hcq : c ≠ q := Ne.symm hqc
        rw [owed, owed, hother q hqc]
        simp [hcq]
    rw [hown]
    exact htr
  case inbox =>
    intro q req hreq
    have hreq' : s.inbox q = some req := hreq
    have hqc : q ≠ c := by
      rintro rfl
      rw [hinbox] at hreq'
      cases hreq'
    exact mayIssue_congr (hother q hqc) (h.inbox q req hreq')

/-- Changes of two entries, in either order. -/
theorem upd_comm (s : Pm) {p q : Int} (f g : Proc → Proc) (h : p ≠ q) :
    (s.upd p f).upd q g = (s.upd q g).upd p f := by
  have htab : (s.table.upd p f).upd q g = (s.table.upd q g).upd p f := by
    funext x
    simp only [Table.upd]
    by_cases hp : x = p
    · have hq : x ≠ q := by rw [hp]; exact h
      simp [hp, h]
    · simp [hp]
  simp only [Pm.upd, htab]

/-- INIT becomes the parent of one entry. -/
theorem inv_setParent {c i : Int} (h : Inv s (some c) k none)
    (hi : InTable i) (hforked : NR_TASKS_NATIVE + NR_PROCS_NATIVE ≤ i)
    (hinit : (s.see i).hanging = true → (s.see INIT).waiting = false) :
    Inv (s.upd i (setParent INIT)) (some c) k none := by
  have hself : (s.upd i (setParent INIT)).see i =
      { s.see i with pParent := INIT } := see_upd_self s i _
  have hother : ∀ q, q ≠ i → (s.upd i (setParent INIT)).see q = s.see q :=
    fun q hq => see_upd_of_ne s _ hq
  have hflags : ∀ q, ((s.upd i (setParent INIT)).see q).hanging =
        (s.see q).hanging ∧
      ((s.upd i (setParent INIT)).see q).freeSlot = (s.see q).freeSlot ∧
      ((s.upd i (setParent INIT)).see q).waiting = (s.see q).waiting ∧
      ((s.upd i (setParent INIT)).see q).exitStatus =
        (s.see q).exitStatus := fun q =>
    ⟨see_upd_field View.hanging (setParent INIT) (fun _ => rfl) s i q,
      see_upd_field View.freeSlot (setParent INIT) (fun _ => rfl) s i q,
      see_upd_field View.waiting (setParent INIT) (fun _ => rfl) s i q,
      see_upd_field View.exitStatus (setParent INIT) (fun _ => rfl) s i q⟩
  have halive : ∀ q, Alive (s.upd i (setParent INIT)) q ↔ Alive s q := by
    intro q
    rw [Alive, Alive, (hflags q).1, (hflags q).2.1]
  constructor
  case native =>
    intro q hq hlt
    have hqi : q ≠ i := by omega
    rw [halive, hother q hqi]
    exact h.native q hq hlt
  case parent =>
    intro q hq hge hf
    rw [(hflags q).2.1] at hf
    by_cases hqi : q = i
    · subst hqi
      rw [hself]
      -- the new parent is INIT, which never dies
      have hlt : (INIT : Int) < NR_TASKS_NATIVE + NR_PROCS_NATIVE := by decide
      have hin : InTable INIT := by decide
      refine ⟨?_, hin, Or.inr ?_⟩
      · have hne : (INIT : Int) ≠ q := by omega
        exact hne
      · rw [halive]
        exact (h.native INIT (by decide) (by decide)).1
    · rw [hother q hqi, halive]
      exact h.parent q hq hge hf
  case noWait =>
    intro q hq hh hpt
    rw [(hflags q).1] at hh
    by_cases hqi : q = i
    · subst hqi
      rw [hself, (hflags INIT).2.2.1]
      -- a HANGING child may only go to an INIT that does not wait
      exact hinit hh
    · rw [hother q hqi] at hpt ⊢
      rw [(hflags _).2.2.1]
      exact h.noWait q hq hh hpt
  case free =>
    intro q hq hf
    rw [(hflags q).2.1] at hf
    rw [(hflags q).1, (hflags q).2.2.1]
    exact h.free q hq hf
  case trace =>
    intro q hq
    have htr := h.trace q hq
    have hown : owed (s.upd i (setParent INIT)) none q = owed s none q := by
      rw [owed, owed, (hflags q).1, (hflags q).2.2.2]
    rw [hown]
    exact htr
  case inbox =>
    intro q req hreq
    have hmay := h.inbox q req hreq
    obtain ⟨hh, hf, hw, -⟩ := hflags q
    exact ⟨hmay.inTable, hf.trans hmay.freeSlot, hh.trans hmay.hanging,
      hw.trans hmay.waiting, hmay.forked⟩

/-- The entry `i` no longer counts on `c`. -/
theorem inv_next {c i : Int} (h : Inv s (some c) i none)
    (hi : (s.see i).pParent ≠ c) : Inv s (some c) (i + 1) none :=
  { h with
    parent := fun q hq hge hf => by
      obtain ⟨hne, hpt, ⟨hgone, hk⟩ | ha⟩ := h.parent q hq hge hf
      · refine ⟨hne, hpt, Or.inl ⟨hgone, ?_⟩⟩
        have hqi : q ≠ i := by
          rintro rfl
          exact hi (Option.some.inj hgone).symm
        omega
      · exact ⟨hne, hpt, Or.inr ha⟩ }

/-- **THE LOOP BODY**: one entry is adopted; if INIT waits and the entry is
    HANGING, INIT gets its report. -/
theorem inv_adopt (hw : KernelOnly world) {c i : Int}
    (h : Inv s (some c) i none) (hi : InTable i) (hc : InTable c)
    (hforked : NR_TASKS_NATIVE + NR_PROCS_NATIVE ≤ c) :
    Inv (adopt world c s i) (some c) (i + 1) none := by
  rw [adopt]
  by_cases hpar : (s.table i).pParent = c
  · rw [if_pos hpar]
    have hcno : c ≠ NO_TASK := by
      rw [inTable_iff] at hc
      rw [NO_TASK, NR_TASKS_NATIVE, NR_PROCS_MAX]
      omega
    have hige : NR_TASKS_NATIVE + NR_PROCS_NATIVE ≤ i := by
      by_contra hlt
      exact hcno (hpar.symm.trans (h.native i hi (by omega)).2)
    have hlt : (INIT : Int) < NR_TASKS_NATIVE + NR_PROCS_NATIVE := by decide
    have hiinit : i ≠ INIT := by omega
    have hcinit : c ≠ INIT := by omega
    have hself : (s.upd i (setParent INIT)).see i =
        { s.see i with pParent := INIT } := see_upd_self s i _
    by_cases hboth : ((s.upd i (setParent INIT)).table INIT).procState.waiting =
        true ∧ ((s.upd i (setParent INIT)).table i).procState.hanging = true
    · rw [if_pos hboth, upd_comm s _ _ hiinit]
      have hhang : (s.see i).hanging = true := by
        have hh : ((s.upd i (setParent INIT)).see i).hanging = true := hboth.2
        rwa [hself] at hh
      have hstop : ((s.upd INIT (setWaiting false)).see INIT).waiting =
          false := by
        rw [see_upd_self]
        rfl
      have hinv := inv_setParent (inv_stopWaiting h) hi hige fun _ => hstop
      have hsee : ((s.upd INIT (setWaiting false)).upd i (setParent INIT)).see i
          = { s.see i with pParent := INIT } := by
        rw [← upd_comm s _ _ hiinit, see_upd_of_ne _ _ hiinit, hself]
      refine inv_procCleanup hw (inv_next hinv ?_) hi hige (Or.inl ?_)
        (Or.inl rfl) ?_ ?_
      · rw [hsee]
        exact hcinit.symm
      · rw [hsee]
        exact hhang
      · cases hreq : s.inbox i with
        | none => exact hreq
        | some req =>
            have hmay := (h.inbox i req hreq).hanging
            rw [show (s.table i).procState.hanging = true from hhang] at hmay
            cases hmay
      · -- a HANGING process is nobody's living parent
        intro q hq hge hf hqi
        obtain ⟨-, -, ⟨hgone, -⟩ | ha⟩ := hinv.parent q hq hge hf
        · rw [hqi] at hgone
          have hci : c = i := Option.some.inj hgone
          have hne := (h.parent i hi hige ?_).1
          · exact absurd (hpar.trans hci) hne
          · by_contra hfree
            have hfr : (s.see i).freeSlot = true := by simpa using hfree
            rw [(h.free i hi hfr).1] at hhang
            cases hhang
        · rw [hqi, Alive, hsee] at ha
          rw [ha.2] at hhang
          cases hhang
    · rw [if_neg hboth]
      refine inv_next (inv_setParent h hi hige fun hh => ?_) ?_
      · by_contra hwait
        refine hboth ⟨?_, ?_⟩
        · have hsee : (s.upd i (setParent INIT)).see INIT = s.see INIT :=
            see_upd_of_ne s _ hiinit.symm
          exact (congrArg View.waiting hsee).trans (by simpa using hwait)
        · exact (congrArg View.hanging hself).trans hh
      · rw [hself]
        exact hcinit.symm
  · rw [if_neg hpar]
    exact inv_next h hpar

/-- What an adoption does to the parents. -/
theorem pParent_adopt (hw : KernelOnly world) {c i q : Int} (hq : InTable q) :
    ((adopt world c s i).see q).pParent =
      if q = i ∧ (s.see i).pParent = c then INIT else (s.see q).pParent := by
  have hset : ((s.upd i (setParent INIT)).see q).pParent =
      if q = i then INIT else (s.see q).pParent := by
    by_cases hqi : q = i
    · rw [hqi, see_upd_self, if_pos rfl]
      rfl
    · rw [see_upd_of_ne s _ hqi, if_neg hqi]
  rw [adopt]
  by_cases hpar : (s.table i).pParent = c
  · have hsee : (s.see i).pParent = c := hpar
    rw [if_pos hpar, hsee]
    simp only [and_true]
    split
    · rw [pParent_procCleanup hw hq]
      exact (see_upd_field View.pParent (setWaiting false) (fun _ => rfl) _ _
        q).trans hset
    · exact hset
  · have hsee : ¬ (s.see i).pParent = c := hpar
    rw [if_neg hpar, if_neg (fun h => hsee h.2)]

/-- A new parent reports to INIT at most. -/
theorem advances_adopt (hw : KernelOnly world) {c i : Int}
    (hpar : (s.see i).pParent = c → par i = INIT) :
    Advances par s (adopt world c s i) := by
  rw [adopt]
  split
  · rename_i hc
    dsimp only
    have hset : Advances par s (s.upd i (setParent INIT)) :=
      advances_upd s fun hf => hf
    split
    · have hstop : Advances par (s.upd i (setParent INIT))
          ((s.upd i (setParent INIT)).upd INIT (setWaiting false)) :=
        advances_upd _ fun hf => hf
      refine advances_trans hset
        (advances_trans hstop (advances_procCleanup hw _ ?_))
      -- by then the parent of the entry is INIT
      rw [hpar hc, see_upd_field View.pParent (setWaiting false) (fun _ => rfl),
        see_upd_self]
      rfl
    · exact hset
  · exact advances_of_free rfl fun q _ hf => hf

/-- **THE LOOP**: all children are adopted. -/
theorem inv_adoptAll (hw : KernelOnly world) {c : Int} (hc : InTable c)
    (hforked : NR_TASKS_NATIVE + NR_PROCS_NATIVE ≤ c) :
    ∀ {n : Nat} {i : Int} {s : Pm}, 0 ≤ i → i + n = 37 →
      Inv s (some c) i none →
      (∀ q, InTable q → (s.see q).pParent = c → par q = INIT) →
      Inv (adoptAll world c n i s) none 37 none ∧
        Advances par s (adoptAll world c n i s) := by
  intro n
  induction n with
  | zero =>
      intro i s h0 hn h _
      obtain rfl : i = 37 := by omega
      refine ⟨{ h with parent := fun q hq hge hf => ?_ },
        advances_of_free rfl fun q _ hf => hf⟩
      obtain ⟨hne, hpt, ⟨-, hk⟩ | ha⟩ := h.parent q hq hge hf
      · rw [inTable_iff] at hq
        omega
      · exact ⟨hne, hpt, Or.inr ha⟩
  | succ n ih =>
      intro i s h0 hn h hpar
      have hi : InTable i := by rw [inTable_iff]; omega
      have hcinit : c ≠ INIT := by
        rintro rfl
        exact absurd hforked (by decide)
      have hstep := inv_adopt hw h hi hc hforked
      have hpar' : ∀ q, InTable q →
          ((adopt world c s i).see q).pParent = c → par q = INIT := by
        intro q hq hqc
        rw [pParent_adopt hw hq] at hqc
        split at hqc
        · exact absurd hqc hcinit.symm
        · exact hpar q hq hqc
      obtain ⟨hinv, hadv⟩ := ih (by omega) (by omega) hstep hpar'
      exact ⟨hinv, advances_trans (advances_adopt hw (hpar i hi)) hadv⟩

/-- The parent of an entry once the children of `c` have gone to INIT. -/
def parentWithout (s : Pm) (c q : Int) : Int :=
  if (s.see q).pParent = c then INIT else (s.see q).pParent

/-- The process that asks. -/
structure Asks (s : Pm) (p : Int) : Prop where
  inTable : InTable p
  alive : Alive s p
  notWaiting : (s.see p).waiting = false
  answered : s.inbox p = none

/-- **EXIT** keeps the books. -/
theorem inv_doExit (hw : KernelOnly world) (h : Inv s none 37 none) {c : Int}
    (hask : Asks s c) (hforked : NR_TASKS_NATIVE + NR_PROCS_NATIVE ≤ c)
    (status : Int) :
    Inv (doExit world s c status) none 37 none ∧
      Advances (parentWithout s c) s (doExit world s c status) := by
  obtain ⟨hc, ⟨hfree, hhang⟩, -, hinbox⟩ := hask
  obtain ⟨hself, hptable, -⟩ := h.parent c hc hforked hfree
  let s₁ := s.ipc world
  let set : Proc → Proc := fun p => { p with exitStatus := status }
  let s₂ : Pm := { s₁.upd c set with exits := s₁.exits ++ [(c, status)] }
  have hsee₁ : ∀ q, InTable q → s₁.see q = s.see q :=
    fun q hq => see_ipc hw s hq
  have hsee₂ : ∀ q, InTable q → (s₂.see q).pParent = (s.see q).pParent ∧
      (s₂.see q).freeSlot = (s.see q).freeSlot ∧
      (s₂.see q).waiting = (s.see q).waiting := by
    intro q hq
    rw [← hsee₁ q hq]
    exact ⟨see_upd_field View.pParent set (fun _ => rfl) s₁ c q,
      see_upd_field View.freeSlot set (fun _ => rfl) s₁ c q,
      see_upd_field View.waiting set (fun _ => rfl) s₁ c q⟩
  have hinv₂ : Inv s₂ (some c) 0 (some c) := by
    refine inv_weaken (inv_setStatus (inv_ipc hw h) hc ?_) c 0
    rw [hsee₁ c hc]
    exact hhang
  have hadv₂ : Advances (parentWithout s c) s s₂ :=
    advances_of_free rfl fun q hq hf => by rwa [(hsee₂ q hq).2.1] at hf
  -- the report to the parent, or the HANGING bit
  let s₃ := reportOrHang world c (s.see c).pParent s₂
  have hinv₃ : Inv s₃ (some c) 0 none ∧
      Advances (parentWithout s c) s₂ s₃ ∧
      ∀ q, InTable q → (s₃.see q).pParent = (s.see q).pParent := by
    by_cases hwait : (s₂.table (s.see c).pParent).procState.waiting = true
    · have hs₃ : s₃ = procCleanup world
          (s₂.upd (s.see c).pParent (setWaiting false)) c := if_pos hwait
      have hstop : ∀ q, ((s₂.upd (s.see c).pParent (setWaiting false)).see
          q).pParent = (s₂.see q).pParent :=
        see_upd_field View.pParent (setWaiting false) (fun _ => rfl) s₂ _
      rw [hs₃]
      refine ⟨inv_procCleanup hw (inv_stopWaiting hinv₂) hc hforked
        (Or.inr rfl) (Or.inr rfl) hinbox ?_, ?_, ?_⟩
      · intro q hq _ _ _
        exact ⟨rfl, (inTable_iff.mp hq).1⟩
      · have hadv : Advances (parentWithout s c) s₂
            (s₂.upd (s.see c).pParent (setWaiting false)) := by
          exact advances_upd _ fun hf => hf
        refine advances_trans hadv (advances_procCleanup hw _ ?_)
        rw [hstop, (hsee₂ c hc).1, parentWithout, if_neg hself]
      · intro q hq
        rw [pParent_procCleanup hw hq, hstop, (hsee₂ q hq).1]
    · have hs₃ : s₃ = s₂.upd c setHanging := if_neg hwait
      rw [hs₃]
      refine ⟨inv_setHanging hinv₂ hc hforked ?_ hinbox ?_, ?_, ?_⟩
      · rw [(hsee₂ c hc).2.1]
        exact hfree
      · rw [(hsee₂ c hc).1]
        have hw' : ¬ (s₂.see (s.see c).pParent).waiting = true := hwait
        simpa using hw'
      · exact advances_upd _ fun hf => hf
      · intro q hq
        rw [see_upd_field View.pParent setHanging (fun _ => rfl),
          (hsee₂ q hq).1]
  obtain ⟨hinv₃, hadv₃, hpar₃⟩ := hinv₃
  have hadopted : ∀ q, InTable q → (s₃.see q).pParent = c →
      parentWithout s c q = INIT := by
    intro q hq hqc
    rw [hpar₃ q hq] at hqc
    exact if_pos hqc
  obtain ⟨hinv, hadv⟩ := inv_adoptAll (n := 37) (i := 0) hw hc hforked
    (by decide) (by decide) hinv₃ hadopted
  exact ⟨hinv, advances_trans hadv₂ (advances_trans hadv₃ hadv)⟩

/-! ## `do_wait` -/

/-- Setting a WAITING bit when no child is HANGING. -/
theorem inv_startWaiting (h : Inv s none 37 none) {p : Int}
    (hask : Asks s p) (hchildren : ∀ q, InTable q → (s.see q).pParent = p →
      (s.see q).hanging = false) :
    Inv (s.upd p (setWaiting true)) none 37 none := by
  have hself : (s.upd p (setWaiting true)).see p =
      { s.see p with waiting := true } := see_upd_self s p _
  have hother : ∀ q, q ≠ p → (s.upd p (setWaiting true)).see q = s.see q :=
    fun q hq => see_upd_of_ne s _ hq
  have hflags : ∀ q, ((s.upd p (setWaiting true)).see q).hanging =
        (s.see q).hanging ∧
      ((s.upd p (setWaiting true)).see q).freeSlot = (s.see q).freeSlot ∧
      ((s.upd p (setWaiting true)).see q).pParent = (s.see q).pParent ∧
      ((s.upd p (setWaiting true)).see q).exitStatus =
        (s.see q).exitStatus := fun q =>
    ⟨see_upd_field View.hanging (setWaiting true) (fun _ => rfl) s p q,
      see_upd_field View.freeSlot (setWaiting true) (fun _ => rfl) s p q,
      see_upd_field View.pParent (setWaiting true) (fun _ => rfl) s p q,
      see_upd_field View.exitStatus (setWaiting true) (fun _ => rfl) s p q⟩
  have halive : ∀ q, Alive (s.upd p (setWaiting true)) q ↔ Alive s q := by
    intro q
    rw [Alive, Alive, (hflags q).1, (hflags q).2.1]
  constructor
  case native =>
    intro q hq hlt
    rw [halive, (hflags q).2.2.1]
    exact h.native q hq hlt
  case parent =>
    intro q hq hge hf
    rw [(hflags q).2.1] at hf
    rw [(hflags q).2.2.1, halive]
    exact h.parent q hq hge hf
  case noWait =>
    intro q hq hh hpt
    rw [(hflags q).1] at hh
    rw [(hflags q).2.2.1] at hpt ⊢
    -- no child of the caller is HANGING
    by_cases hqp : (s.see q).pParent = p
    · rw [hchildren q hq hqp] at hh
      cases hh
    · rw [hother _ hqp]
      exact h.noWait q hq hh hpt
  case free =>
    intro q hq hf
    rw [(hflags q).2.1] at hf
    have hqp : q ≠ p := by
      rintro rfl
      rw [hask.alive.1] at hf
      cases hf
    rw [hother q hqp]
    exact h.free q hq hf
  case trace =>
    intro q hq
    have htr := h.trace q hq
    rw [owed] at htr ⊢
    rw [(hflags q).1, (hflags q).2.2.2]
    exact htr
  case inbox =>
    intro q req hreq
    have hreq' : s.inbox q = some req := hreq
    have hqp : q ≠ p := by
      rintro rfl
      rw [hask.answered] at hreq'
      cases hreq'
    exact mayIssue_congr (hother q hqp) (h.inbox q req hreq')

/-- A HANGING process has no children left and no request on its way. -/
theorem inv_reap (hw : KernelOnly world) (h : Inv s none 37 none) {c : Int}
    (hc : InTable c) (hhang : (s.see c).hanging = true) :
    Inv (procCleanup world s c) none 37 none := by
  have hforked : NR_TASKS_NATIVE + NR_PROCS_NATIVE ≤ c := by
    by_contra hlt
    have halive := (h.native c hc (by omega)).1
    rw [halive.2] at hhang
    cases hhang
  refine inv_procCleanup hw h hc hforked (Or.inl hhang) (Or.inl rfl) ?_ ?_
  · cases hreq : s.inbox c with
    | none => rfl
    | some req =>
        have hmay : (s.see c).hanging = false := (h.inbox c req hreq).hanging
        rw [hmay] at hhang
        cases hhang
  · intro q hq hge hf hqc
    obtain ⟨-, -, ⟨hgone, -⟩ | ha⟩ := h.parent q hq hge hf
    · cases hgone
    · rw [hqc] at ha
      rw [ha.2] at hhang
      cases hhang

/-- **WAIT** keeps the books. -/
theorem inv_waitLoop (hw : KernelOnly world) {p : Int} :
    ∀ {n : Nat} {i : Int} {hasChildren : Nat} {s : Pm}, 0 ≤ i → i + n = 37 →
      Inv s none 37 none → Asks s p →
      (∀ q, InTable q → q < i → (s.see q).pParent = p →
        (s.see q).hanging = false) →
      Inv (waitLoop world p n i hasChildren s) none 37 none ∧
        Advances (fun q => (s.see q).pParent) s
          (waitLoop world p n i hasChildren s) := by
  intro n
  induction n with
  | zero =>
      intro i hasChildren s h0 hn h hask hseen
      rw [waitLoop]
      split
      · -- all entries have been seen
        refine ⟨inv_startWaiting h hask fun q hq hqp => hseen q hq ?_ hqp,
          advances_upd s fun hf => hf⟩
        rw [inTable_iff] at hq
        omega
      · exact ⟨inv_ipc hw h, advances_ipc hw s⟩
  | succ n ih =>
      intro i hasChildren s h0 hn h hask hseen
      have hi : InTable i := by rw [inTable_iff]; omega
      rw [waitLoop]
      split
      · split
        · rename_i hpar hhang
          exact ⟨inv_reap hw h hi hhang, advances_procCleanup hw s rfl⟩
        · rename_i hpar hhang
          refine ih (by omega) (by omega) h hask fun q hq hlt hqp => ?_
          by_cases hqi : q = i
          · rw [hqi]
            have hh : ¬ (s.see i).hanging = true := hhang
            simpa using hh
          · exact hseen q hq (by omega) hqp
      · rename_i hpar
        refine ih (by omega) (by omega) h hask fun q hq hlt hqp => ?_
        have hqi : q ≠ i := by
          rintro rfl
          exact hpar hqp
        exact hseen q hq (by omega) hqp

/-! ## `do_fork` -/

/-- The entry that is found is free. -/
theorem findFree_eq_some {T : Table} {c : Int} :
    ∀ {n : Nat} {i : Int}, 0 ≤ i → i + n = 37 → findFree T n i = some c →
      InTable c ∧ (T c).procState = FREE_SLOT := by
  intro n
  induction n with
  | zero => intro i _ _ h; cases h
  | succ n ih =>
      intro i h0 hn h
      rw [findFree] at h
      split at h
      · rename_i hfree
        obtain rfl := Option.some.inj h
        refine ⟨?_, hfree⟩
        rw [inTable_iff]
        omega
      · exact ih (by omega) (by omega) h

/-- A free slot becomes a copy of the process that asks. -/
theorem inv_newChild (h : Inv s none 37 none) {p c : Int} (base : Int)
    (hask : Asks s p) (hc : InTable c) (hfree : (s.see c).freeSlot = true) :
    Inv (s.upd c fun _ => childProc p base (s.table p)) none 37 none := by
  let s' : Pm := s.upd c fun _ => childProc p base (s.table p)
  have hself : s'.see c = { s.see p with pParent := p } := see_upd_self s c _
  have hother : ∀ q, q ≠ c → s'.see q = s.see q :=
    fun q hq => see_upd_of_ne s _ hq
  -- the slot was nobody's
  have hdead : ∀ q, Alive s q → q ≠ c := by
    rintro q hq rfl
    rw [hq.1] at hfree
    cases hfree
  have halive : ∀ q, Alive s q → Alive s' q := by
    intro q hq
    rw [Alive, hother q (hdead q hq)]
    exact hq
  have hforked : NR_TASKS_NATIVE + NR_PROCS_NATIVE ≤ c := by
    by_contra hlt
    exact hdead c (h.native c hc (by omega)).1 rfl
  constructor
  case native =>
    intro q hq hlt
    obtain ⟨ha, hpar⟩ := h.native q hq hlt
    refine ⟨halive q ha, ?_⟩
    rw [show (s.upd c fun _ => childProc p base (s.table p)).see q = s.see q
      from hother q (hdead q ha)]
    exact hpar
  case parent =>
    intro q hq hge hf
    change (s'.see q).freeSlot = false at hf
    show (s'.see q).pParent ≠ q ∧ InTable (s'.see q).pParent ∧
      ((none = some (s'.see q).pParent ∧ _) ∨ Alive s' (s'.see q).pParent)
    by_cases hqc : q = c
    · rw [hqc, hself]
      exact ⟨hdead p hask.alive, hask.inTable,
        Or.inr (halive p hask.alive)⟩
    · rw [hother q hqc] at hf ⊢
      obtain ⟨hne, hpt, hgone | ha⟩ := h.parent q hq hge hf
      · cases hgone.1
      · exact ⟨hne, hpt, Or.inr (halive _ ha)⟩
  case noWait =>
    intro q hq hh hpt
    change (s'.see q).hanging = true at hh
    change InTable (s'.see q).pParent at hpt
    show (s'.see (s'.see q).pParent).waiting = false
    have hqc : q ≠ c := by
      rintro rfl
      rw [hself] at hh
      exact absurd hask.alive.2 (by rw [hh]; decide)
    rw [hother q hqc] at hh hpt ⊢
    by_cases hpc : (s.see q).pParent = c
    · rw [hpc, hself]
      exact hask.notWaiting
    · rw [hother _ hpc]
      exact h.noWait q hq hh hpt
  case free =>
    intro q hq hf
    change (s'.see q).freeSlot = true at hf
    have hqc : q ≠ c := by
      rintro rfl
      rw [hself] at hf
      exact absurd hask.alive.1 (by rw [hf]; decide)
    rw [hother q hqc] at hf
    show (s'.see q).hanging = false ∧ (s'.see q).waiting = false
    rw [hother q hqc]
    exact h.free q hq hf
  case trace =>
    intro q hq
    have htr := h.trace q hq
    -- the caller is alive, so its copy owes nothing either
    have hown : owed s' none q = owed s none q := by
      by_cases hqc : q = c
      · rw [hqc, owed, owed, hself, (h.free c hc hfree).1]
        simp [hask.alive.2]
      · rw [owed, owed, hother q hqc]
    have hsame : exitsOf s q = reportsOf s q ++ owed s' none q := by
      rw [hown]; exact htr
    exact hsame
  case inbox =>
    intro q req hreq
    have hreq' : s.inbox q = some req := hreq
    have hmay := h.inbox q req hreq'
    have hqc : q ≠ c := by
      rintro rfl
      have hf : (s.see q).freeSlot = false := hmay.freeSlot
      rw [hf] at hfree
      cases hfree
    exact mayIssue_congr (hother q hqc) hmay

/-- **FORK** keeps the books. -/
theorem inv_doFork (hw : KernelOnly world) (h : Inv s none 37 none) {p : Int}
    (hask : Asks s p) {memorySize : Int} {res : Pm × Option Int}
    (hcall : doFork world memorySize s p = .ok res) :
    Inv res.1 none 37 none ∧ Advances par s res.1 := by
  unfold doFork at hcall
  cases hfind : findFree s.table 37 0 with
  | none =>
      rw [hfind] at hcall
      obtain rfl := pure_eq_ok.mp hcall
      exact ⟨h, advances_of_free rfl fun q _ hf => hf⟩
  | some c =>
      obtain ⟨hc, hslot⟩ :=
        findFree_eq_some (n := 37) (i := 0) (by decide) (by decide) hfind
      have hfree : (s.see c).freeSlot = true := congrArg ProcState.freeSlot hslot
      rw [hfind] at hcall
      simp only [bind_eq_ok, pure_eq_ok] at hcall
      obtain ⟨base, -, rfl⟩ := hcall
      have hnew := inv_newChild h base hask hc hfree
      refine ⟨inv_ipc hw (inv_ipc hw hnew), ?_⟩
      have hadv : Advances par s
          (s.upd c fun _ => childProc p base (s.table p)) := by
        exact advances_upd _ fun _ => hfree
      exact advances_trans hadv
        (advances_trans (advances_ipc hw _) (advances_ipc hw _))

/-! ## Runs of PM -/

/-- The parent of `q` when its status is reported during an event: the
    children of a process that exits have gone to INIT. -/
def parentAt (s : Pm) : Event → Int → Int
  | .handle c (.exit _), q => parentWithout s c q
  | _, q => (s.see q).pParent

/-- **STEP**: an event keeps the books and reports to the parents. -/
theorem inv_step {e : Event} (h : Inv s none 37 none) (hstep : Step s e s') :
    Inv s' none 37 none ∧ Advances (parentAt s e) s s' := by
  cases hstep with
  | kernel hcall =>
      have hsee : ∀ q, InTable q → Pm.see { s with table := _ } q = s.see q :=
        fun q hq => view_step hcall hq
      exact ⟨inv_congr h hsee rfl rfl rfl,
        advances_of_free rfl fun q hq hf => by rwa [hsee q hq] at hf⟩
  | issue hidle hmay =>
      rename_i p req
      refine ⟨⟨h.native, h.parent, h.noWait, h.free, h.trace, ?_⟩,
        advances_of_free rfl fun q _ hf => hf⟩
      intro q req' hreq
      by_cases hqp : q = p
      · simp only [hqp, if_true] at hreq
        obtain rfl := Option.some.inj hreq
        rw [hqp]
        exact hmay
      · simp only [hqp, if_false] at hreq
        exact h.inbox q req' hreq
  | handle hreq hw hcall =>
      rename_i world memorySize p req
      -- the request is taken out of the inbox, and then served
      let s₁ : Pm := { s with
        inbox := fun q => (if q = p then none else s.inbox q) }
      have hmay := h.inbox p req hreq
      have h₁ : Inv s₁ none 37 none := by
        refine ⟨h.native, h.parent, h.noWait, h.free, h.trace, ?_⟩
        intro q req' hreq'
        by_cases hqp : q = p
        · simp [s₁, hqp] at hreq'
        · simp only [s₁, hqp, if_false] at hreq'
          exact h.inbox q req' hreq'
      have hask : Asks s₁ p :=
        ⟨hmay.inTable, ⟨hmay.freeSlot, hmay.hanging⟩, hmay.waiting,
          if_pos rfl⟩
      change taskPm world memorySize s₁ p req = .ok s' at hcall
      cases req with
      | fork =>
          simp only [taskPm, bind_eq_ok, pure_eq_ok] at hcall
          obtain ⟨res, hres, rfl⟩ := hcall
          obtain ⟨hinv, hadv⟩ := inv_doFork hw h₁ hask hres
          exact ⟨inv_ipc hw hinv, advances_trans hadv (advances_ipc hw _)⟩
      | exit status =>
          obtain rfl := pure_eq_ok.mp hcall
          exact inv_doExit hw h₁ hask (hmay.forked status rfl) status
      | wait =>
          obtain rfl := pure_eq_ok.mp hcall
          refine inv_waitLoop (n := 37) (i := 0) hw (by decide) (by decide) h₁
            hask ?_
          intro q hq hlt _
          rw [inTable_iff] at hq
          omega

/-- The invariant at boot. -/
theorem inv_boot (h : Boot s) : Inv s none 37 none := by
  obtain ⟨kTop, outside, htab⟩ := h.table
  have hsee : ∀ q, InTable q → s.see q =
      if NR_TASKS_NATIVE + NR_PROCS_NATIVE ≤ q then view freeProc
      else ⟨false, false, false, NO_TASK, 0⟩ := by
    intro q hq
    rw [Pm.see, htab, initProcess, if_neg (by simpa using hq)]
    by_cases hge : q ≥ NR_TASKS_NATIVE + NR_PROCS_NATIVE
    · rw [if_pos hge, if_pos hge]
    · rw [if_neg hge, if_neg hge]
      split <;> rfl
  have hhang : ∀ q, InTable q → (s.see q).hanging = false := by
    intro q hq
    rw [hsee q hq]
    split <;> rfl
  constructor
  case native =>
    intro q hq hlt
    rw [Alive, hsee q hq, if_neg (by omega)]
    exact ⟨⟨rfl, rfl⟩, rfl⟩
  case parent =>
    intro q hq hge hf
    rw [hsee q hq, if_pos hge] at hf
    cases hf
  case noWait =>
    intro q hq hh
    rw [hhang q hq] at hh
    cases hh
  case free =>
    intro q hq _
    refine ⟨hhang q hq, ?_⟩
    rw [hsee q hq]
    split <;> rfl
  case trace =>
    intro q hq
    rw [exitsOf, reportsOf, owed, h.exits, h.reports, hhang q hq]
    simp
  case inbox =>
    intro q req hreq
    rw [h.inbox q] at hreq
    cases hreq

/-- The books hold between the requests of every run. -/
theorem inv_reach (h : Reach Boot Step free s) : Inv s none 37 none :=
  reach_invariant (fun s => Inv s none 37 none) (fun _ h => inv_boot h)
    (fun _ _ _ h _ hstep => (inv_step h hstep).1) h

/-- **EXIT AND WAIT BOOKKEEPING**: in every state of every run of fork, exit
    and wait requests, with any kernel calls in between. -/
theorem bookkeeping (h : Reach Boot Step free s) :
    -- a forked process has a living parent
    (∀ q, InTable q → NR_TASKS_NATIVE + NR_PROCS_NATIVE ≤ q →
      (s.table q).procState.freeSlot = false →
      InTable (s.table q).pParent ∧
        (s.table (s.table q).pParent).procState.freeSlot = false ∧
        (s.table (s.table q).pParent).procState.hanging = false) ∧
    -- nobody is WAITING for a child that is HANGING
    (∀ p q, InTable p → InTable q → (s.table p).procState.waiting = true →
      (s.table q).pParent = p → (s.table q).procState.hanging = false) ∧
    -- what has exited is reported, in order, but for a HANGING process
    (∀ q, InTable q → exitsOf s q = reportsOf s q ++
      if (s.table q).procState.hanging = true then [(s.table q).exitStatus]
      else []) ∧
    -- reports go to the parent, and only they free a slot
    ∀ e s', Step s e s' → ∃ new, s'.reports = s.reports ++ new ∧
      (∀ ρ ∈ new, ρ.receiver = parentAt s e ρ.child) ∧
      ∀ q, InTable q → (s'.table q).procState.freeSlot = true →
        (s.table q).procState.freeSlot = true ∨ ∃ ρ ∈ new, ρ.child = q := by
  have hinv := inv_reach h
  refine ⟨?_, ?_, ?_, ?_⟩
  · intro q hq hge hf
    obtain ⟨-, hpt, hgone | ha⟩ := hinv.parent q hq hge hf
    · cases hgone.1
    · exact ⟨hpt, ha.1, ha.2⟩
  · intro p q hp hq hwait hpar
    by_contra hhang
    have hh : (s.see q).hanging = true := by
      show (s.table q).procState.hanging = true
      simpa using hhang
    have hsee : (s.see q).pParent = p := hpar
    have hnot := hinv.noWait q hq hh (by rw [hsee]; exact hp)
    rw [hsee] at hnot
    exact absurd (hwait.symm.trans hnot) (by decide)
  · intro q hq
    have htr := hinv.trace q hq
    rw [owed] at htr
    simpa [Pm.see, view] using htr
  · intro e s' hstep
    exact (inv_step hinv hstep).2

/-! ## A fork, an exit and a wait -/

/-- Nothing happens during IPC. -/
def quiet : World := fun _ T => T

theorem quiet_kernelOnly : KernelOnly quiet := fun _ _ => .refl

/-- PM behind `init_process`. -/
def bootPm : Pm where
  table := initProcess 0xFFFFF fun _ => freeProc
  ipcs := 0
  reports := []
  exits := []
  inbox := fun _ => none

/-- A request made and handled at once. -/
theorem reach_request (p : Int) (req : Request)
    (h : Reach Boot Step free s) (hidle : s.inbox p = none)
    (hmay : MayIssue s.table p req)
    (hcall : taskPm quiet 0x2000000 s p req = .ok s') :
    Reach Boot Step free s' := by
  let s₁ : Pm := { s with
    inbox := fun q => (if q = p then some req else s.inbox q) }
  have hissue : Step s (.issue p req) s₁ := .issue hidle hmay
  have hin : (fun q => if q = p then none else s₁.inbox q) = s.inbox := by
    funext q
    by_cases hq : q = p
    · simp [hq, hidle]
    · simp [s₁, hq]
  have hcall' : taskPm quiet 0x2000000 { s₁ with
      inbox := fun q => (if q = p then none else s₁.inbox q) } p req =
      .ok s' := by
    rw [hin]
    exact hcall
  exact .next (.next h trivial hissue) trivial
    (.handle (if_pos rfl) quiet_kernelOnly hcall')

/-- INIT has forked process 9. -/
def forkedPm : Pm :=
  { bootPm.upd 9 (fun _ => childProc INIT 0xA00000 (bootPm.table INIT)) with
    ipcs := 3 }

theorem taskPm_fork :
    taskPm quiet 0x2000000 bootPm INIT .fork = .ok forkedPm := by
  have hfind : findFree bootPm.table 37 0 = some 9 := by decide +kernel
  have hbase : childBase 0x2000000 (bootPm.table INIT) 9 = .ok 0xA00000 := by
    decide +kernel
  simp only [taskPm, doFork, hfind]
  rw [hbase]
  rfl

theorem bootPm_boot : Boot bootPm :=
  ⟨⟨_, _, rfl⟩, rfl, rfl, fun _ => rfl⟩

theorem forkedPm_reach : Reach Boot Step free forkedPm := by
  refine reach_request INIT .fork (.start bootPm_boot) rfl
    ⟨by decide, ?_, ?_, ?_, ?_⟩ taskPm_fork
  · decide +kernel
  · decide +kernel
  · decide +kernel
  · intro status h; cases h

/-- Process 9 has exited with 3, then INIT has waited. -/
def reapedPm : Pm := doWait quiet (doExit quiet forkedPm 9 3) INIT

theorem reapedPm_reach : Reach Boot Step free reapedPm := by
  have h₂ : Reach Boot Step free (doExit quiet forkedPm 9 3) := by
    refine reach_request 9 (.exit 3) forkedPm_reach rfl
      ⟨by decide, ?_, ?_, ?_, ?_⟩ rfl
    · decide +kernel
    · decide +kernel
    · decide +kernel
    · intro _ _; decide
  refine reach_request INIT .wait h₂ ?_ ⟨by decide, ?_, ?_, ?_, ?_⟩ rfl
  · decide +kernel
  · decide +kernel
  · decide +kernel
  · decide +kernel
  · intro status h; cases h

/-- `bookkeeping` after that run: the status 3 was reported once. -/
theorem bookkeeping_reaped :
    exitsOf reapedPm 9 = [3] ∧ reportsOf reapedPm 9 = [3] := by
  have htr := (bookkeeping reapedPm_reach).2.2.1 9 (by decide)
  have hhang : (reapedPm.table 9).procState.hanging = false := by
    decide +kernel
  have hrep : reportsOf reapedPm 9 = [3] := by decide +kernel
  rw [hhang, hrep] at htr
  exact ⟨htr, hrep⟩

end KosProcessManager
