import Kos.ProcessManagerProofs
import Mathlib.Data.Int.Range

/-! # The answers of `wait`

    `do_wait` with the messages that it sends.  Two slips: the answer to a
    process without children has `SYSCALL_RET` in the place of its `source`, and
    the search for children also finds slots that are free.

    * nothing but the messages is added (`waitLoopSent_fst`);
    * a WAITING process with a living child is woken when that child exits,
      whatever happens until then (`child_wakes`);
    * so `wait` is answered as it should be if and only if there is a living
      child (`wait_answered`). -/

namespace KosWaitReplies

open FlatMemory KosKernel KosIpc GuardedRun Relation KosProcessManager

/-! ## The messages -/

/-- The fields of a message that PM writes. -/
structure Message where
  source : Int
  type : Int
  status : Int
  pid : Int
  deriving DecidableEq, Repr

/-- A message and who it is sent to. -/
structure Sent where
  receiver : Int
  msg : Message
  deriving DecidableEq, Repr

/-- The type of PM's replies. -/
def SYSCALL_RET : Int := 19

/-- `msg2parent` in `proc_cleanup`. -/
def msg2parent (pid : Int) (p : Proc) : Message where
  source := 0
  type := SYSCALL_RET
  status := p.exitStatus
  pid := pid

/-- `{SYSCALL_RET, .PID = NO_TASK}` in `do_wait`: a value without a name goes to
    the first field. -/
def noChildMsg : Message where
  source := SYSCALL_RET
  type := 0
  status := 0
  pid := NO_TASK

/-- `waitLoop` with the messages that are sent. -/
def waitLoopSent (world : World) (pid : Int) :
    Nat → Int → Nat → Pm → Pm × List Sent
  | 0, _, hasChildren, s =>
      if hasChildren ≠ 0 then (s.upd pid (setWaiting true), [])
      else (s.ipc world, [⟨pid, noChildMsg⟩])
  | n + 1, i, hasChildren, s =>
      if (s.table i).pParent = pid then
        if (s.table i).procState.hanging = true then
          (procCleanup world s i,
            [⟨(s.table i).pParent, msg2parent i (s.table i)⟩])
        else waitLoopSent world pid n (i + 1) (hasChildren + 1) s
      else waitLoopSent world pid n (i + 1) hasChildren s

/-- `doWait` with the messages that are sent. -/
def doWaitSent (world : World) (s : Pm) (pid : Int) : Pm × List Sent :=
  waitLoopSent world pid 37 0 0 s

variable {world : World} {s s' t : Pm} {p q c i : Int} {n hasChildren : Nat}

/-- The messages are all that is added. -/
theorem waitLoopSent_fst (world : World) (pid : Int) :
    ∀ n i hasChildren (s : Pm), (waitLoopSent world pid n i hasChildren s).1 =
      waitLoop world pid n i hasChildren s := by
  intro n
  induction n with
  | zero =>
      intro i hasChildren s
      rw [waitLoopSent, waitLoop]
      split <;> rfl
  | succ n ih =>
      intro i hasChildren s
      rw [waitLoopSent, waitLoop]
      split
      · split
        · rfl
        · exact ih _ _ _
      · exact ih _ _ _

/-- The book of the replies does not change what `do_wait` does. -/
theorem doWaitSent_fst (world : World) (s : Pm) (pid : Int) :
    (doWaitSent world s pid).1 = doWait world s pid :=
  waitLoopSent_fst world pid 37 0 0 s

/-- **THE SEARCH**: with no HANGING child, all slots are counted that have the
    process for a parent. -/
theorem waitLoopSent_eq (world : World) :
    ∀ {n : Nat} {i : Int} (hasChildren : Nat),
    0 ≤ i → i + n = 37 →
    (∀ q, InTable q → (s.see q).pParent = p → (s.see q).hanging = false) →
    ((hasChildren ≠ 0 ∨ ∃ q, InTable q ∧ i ≤ q ∧ (s.see q).pParent = p) →
      waitLoopSent world p n i hasChildren s =
        (s.upd p (setWaiting true), [])) ∧
    (hasChildren = 0 → (∀ q, InTable q → i ≤ q → (s.see q).pParent ≠ p) →
      waitLoopSent world p n i hasChildren s =
        (s.ipc world, [⟨p, noChildMsg⟩])) := by
  intro n
  induction n with
  | zero =>
      intro i hasChildren h0 hn _
      rw [waitLoopSent]
      constructor
      · rintro (hsome | ⟨q, hq, hle, -⟩)
        · exact if_pos hsome
        · rw [inTable_iff] at hq
          omega
      · exact fun hnone _ => if_neg (not_not.mpr hnone)
  | succ n ih =>
      intro i hasChildren h0 hn hhang
      have hi : InTable i := by rw [inTable_iff]; omega
      have hrest : ∀ q, InTable q → i ≤ q → q ≠ i → i + 1 ≤ q :=
        fun q _ hle hne => by omega
      rw [waitLoopSent]
      by_cases hpar : (s.table i).pParent = p
      · -- one more child, and the process will be WAITING
        have hh : ¬ (s.table i).procState.hanging = true := by
          have hh' : (s.table i).procState.hanging = false := hhang i hi hpar
          rw [hh']
          decide
        rw [if_pos hpar, if_neg hh]
        refine ⟨fun _ => (ih _ (by omega) (by omega) hhang).1
          (Or.inl (Nat.succ_ne_zero _)), fun _ hnone => ?_⟩
        exact absurd hpar (hnone i hi (Int.le_refl i))
      · -- the entry is nobody's child, or somebody else's
        rw [if_neg hpar]
        refine ⟨fun hsome => (ih _ (by omega) (by omega) hhang).1 ?_,
          fun hzero hnone => (ih _ (by omega) (by omega) hhang).2 hzero
            fun q hq hle => hnone q hq (by omega)⟩
        refine hsome.imp_right ?_
        rintro ⟨q, hq, hle, hqp⟩
        have hne : q ≠ i := by
          rintro rfl
          exact hpar hqp
        exact ⟨q, hq, hrest q hq hle hne, hqp⟩

/-! ## Who is whose child -/

/-- A living child. -/
structure Child (s : Pm) (p c : Int) : Prop where
  inTable : InTable c
  alive : Alive s c
  parent : (s.see c).pParent = p

/-- What makes an entry a living child. -/
def kinOf (p : Proc) : Bool × Bool × Int :=
  (p.procState.freeSlot, p.procState.hanging, p.pParent)

/-- What an entry says of its family. -/
def kin (s : Pm) (q : Int) : Bool × Bool × Int := kinOf (s.table q)

/-- Being a child is read from the entry of the child alone. -/
theorem Child.congr (h : Child s p c) (hkin : kin s' c = kin s c) :
    Child s' p c := by
  obtain ⟨hc, ⟨hfree, hhang⟩, hpar⟩ := h
  refine ⟨hc, ⟨?_, ?_⟩, ?_⟩
  · exact (congrArg Prod.fst hkin).trans hfree
  · exact (congrArg (fun k => k.2.1) hkin).trans hhang
  · exact (congrArg (fun k => k.2.2) hkin).trans hpar

/-- What PM reads of an entry tells its parent and whether it is free or hanging. -/
theorem kin_of_see (h : s'.see q = s.see q) : kin s' q = kin s q :=
  congrArg (fun v : View => (v.freeSlot, v.hanging, v.pParent)) h

/-- IPC of the other tasks leaves the kinship alone. -/
theorem kin_ipc (hw : KernelOnly world) (hq : InTable q) :
    kin (s.ipc world) q = kin s q := kin_of_see (see_ipc hw s hq)

/-- A write to another entry leaves the kinship alone. -/
theorem kin_upd_of_ne (f : Proc → Proc) (h : q ≠ p) :
    kin (s.upd p f) q = kin s q := kin_of_see (see_upd_of_ne s f h)

/-- An update of other fields. -/
theorem kin_upd {f : Proc → Proc} (hf : ∀ x, kinOf (f x) = kinOf x) :
    kin (s.upd p f) q = kin s q := by
  by_cases hqp : q = p
  · rw [hqp]
    exact (congrArg kinOf (upd_self s.table p f)).trans (hf _)
  · exact kin_upd_of_ne f hqp

/-- `WAITING` is no part of the kinship. -/
theorem kin_setWaiting (b : Bool) :
    kin (s.upd p (setWaiting b)) q = kin s q := kin_upd fun _ => rfl

/-- `proc_cleanup` of one child leaves the kinship of the others. -/
theorem kin_procCleanup (hw : KernelOnly world) (hq : InTable q)
    (h : q ≠ c) : kin (procCleanup world s c) q = kin s q :=
  (kin_upd_of_ne setFree h).trans (kin_ipc hw hq)

/-- Only children of `c`, and HANGING ones, change in an adoption. -/
theorem kin_adopt (hw : KernelOnly world) (h : Child s p q) (hpc : p ≠ c) :
    kin (adopt world c s i) q = kin s q := by
  have hpar : (s.table q).pParent = p := h.parent
  rw [adopt]
  split
  · rename_i hi
    have hqi : q ≠ i := by
      rintro rfl
      exact hpc (hpar.symm.trans hi)
    dsimp only
    split
    · exact (kin_procCleanup hw h.inTable hqi).trans
        ((kin_setWaiting false).trans (kin_upd_of_ne _ hqi))
    · exact kin_upd_of_ne _ hqi
  · rfl

/-- A child of another process stays one while INIT adopts. -/
theorem kin_adoptAll (hw : KernelOnly world) (hpc : p ≠ c) :
    ∀ {n : Nat} {i : Int} {s : Pm}, Child s p q →
      kin (adoptAll world c n i s) q = kin s q := by
  intro n
  induction n with
  | zero => exact fun _ => rfl
  | succ n ih =>
      intro i s h
      have hstep := kin_adopt (i := i) hw h hpc
      exact (ih (h.congr hstep)).trans hstep

/-- The report of an exit touches the entry of the dead process alone. -/
theorem kin_reportOrHang (hw : KernelOnly world) (hq : InTable q)
    (h : q ≠ c) (parent : Int) :
    kin (reportOrHang world c parent s) q = kin s q := by
  rw [reportOrHang]
  split
  · exact (kin_procCleanup hw hq h).trans (kin_setWaiting false)
  · exact kin_upd_of_ne _ h

/-- The exit of a process that is neither the child nor its parent. -/
theorem kin_doExit (hw : KernelOnly world) (h : Child s p q) (hqc : q ≠ c)
    (hpc : p ≠ c) (status : Int) :
    kin (doExit world s c status) q = kin s q := by
  have h₁ : kin (s.ipc world) q = kin s q := kin_ipc hw h.inTable
  have h₂ : kin ((s.ipc world).upd c fun p =>
      { p with exitStatus := status }) q = kin (s.ipc world) q :=
    kin_upd fun _ => rfl
  have h₃ := (kin_reportOrHang (s := { (s.ipc world).upd c
      (fun p => { p with exitStatus := status }) with
    exits := s.exits ++ [(c, status)] }) hw h.inTable hqc
    (s.table c).pParent).trans (h₂.trans h₁)
  exact (kin_adoptAll hw hpc (h.congr h₃)).trans h₃

/-- Reaping takes HANGING children. -/
theorem kin_waitLoop (hw : KernelOnly world) (h : Child s p q) (w : Int) :
    ∀ n i hasChildren,
      kin (waitLoop world w n i hasChildren s) q = kin s q := by
  intro n
  induction n with
  | zero =>
      intro i hasChildren
      rw [waitLoop]
      split
      · exact kin_setWaiting true
      · exact kin_ipc hw h.inTable
  | succ n ih =>
      intro i hasChildren
      rw [waitLoop]
      split
      · split
        · rename_i hhang
          have hqi : q ≠ i := by
            rintro rfl
            have hlive : (s.table q).procState.hanging = false := h.alive.2
            rw [hlive] at hhang
            cases hhang
          exact kin_procCleanup hw h.inTable hqi
        · exact ih _ _
      · exact ih _ _

/-- A fork fills a slot that is free. -/
theorem kin_doFork (hw : KernelOnly world) (h : Child s p q)
    {memorySize w : Int} {res : Pm × Option Int}
    (hcall : doFork world memorySize s w = .ok res) :
    kin res.1 q = kin s q := by
  unfold doFork at hcall
  cases hfind : findFree s.table 37 0 with
  | none =>
      rw [hfind] at hcall
      obtain rfl := pure_eq_ok.mp hcall
      rfl
  | some child =>
      obtain ⟨-, hslot⟩ :=
        findFree_eq_some (n := 37) (i := 0) (by decide) (by decide) hfind
      have hq : q ≠ child := by
        rintro rfl
        have hlive : (s.table q).procState.freeSlot = false := h.alive.1
        rw [hslot] at hlive
        cases hlive
      rw [hfind] at hcall
      simp only [bind_eq_ok, pure_eq_ok] at hcall
      obtain ⟨base, -, rfl⟩ := hcall
      exact (kin_ipc hw h.inTable).trans
        ((kin_ipc hw h.inTable).trans (kin_upd_of_ne _ hq))

/-- The state in which PM handles the request of `p`. -/
def Pm.received (s : Pm) (p : Int) : Pm :=
  { s with inbox := fun q => if q = p then none else s.inbox q }

/-- **STEP**: while `p` is WAITING, its living child stays one until it
    exits. -/
theorem child_step {e : KosProcessManager.Event} (hinv : Inv s none 37 none) (h : Child s p c)
    (hwait : (s.see p).waiting = true) (hstep : Step s e s') :
    Child s' p c ∨ ∃ status, e = .handle c (.exit status) := by
  cases hstep with
  | kernel hcall =>
      exact Or.inl (h.congr (kin_of_see (view_step hcall h.inTable)))
  | issue hidle hmay => exact Or.inl ⟨h.inTable, h.alive, h.parent⟩
  | handle hreq hw hcall =>
      rename_i world memorySize w req
      -- a WAITING process has no request on its way
      have hpw : p ≠ w := by
        rintro rfl
        have hmay := (hinv.inbox p req hreq).waiting
        exact absurd (hwait.symm.trans hmay) (by decide)
      have h₁ : Child (Pm.received s w) p c := ⟨h.inTable, h.alive, h.parent⟩
      change taskPm world memorySize (Pm.received s w) w req = .ok s' at hcall
      cases req with
      | fork =>
          simp only [taskPm, bind_eq_ok, pure_eq_ok] at hcall
          obtain ⟨res, hres, rfl⟩ := hcall
          exact Or.inl (h₁.congr
            ((kin_ipc hw h.inTable).trans (kin_doFork hw h₁ hres)))
      | exit status =>
          obtain rfl := pure_eq_ok.mp hcall
          by_cases hcw : c = w
          · exact Or.inr ⟨status, by rw [hcw]⟩
          · exact Or.inl (h₁.congr (kin_doExit hw h₁ hcw hpw status))
      | wait =>
          obtain rfl := pure_eq_ok.mp hcall
          exact Or.inl (h₁.congr (kin_waitLoop hw h₁ w 37 0 0))

/-! ## The exit that wakes the parent -/

/-- A write that does not set `WAITING` leaves a caller not waiting. -/
theorem waiting_upd {f : Proc → Proc} (h : (s.see p).waiting = false)
    (hf : ∀ x : Proc, x.procState.waiting = false →
      (f x).procState.waiting = false) :
    ((s.upd q f).see p).waiting = false := by
  by_cases hpq : p = q
  · rw [hpq, see_upd_self]
    exact hf _ (hpq ▸ h)
  · rw [see_upd_of_ne s f hpq]
    exact h

/-- `proc_cleanup` sets no process `WAITING`. -/
theorem waiting_procCleanup (hw : KernelOnly world) (hp : InTable p)
    (h : (s.see p).waiting = false) :
    ((procCleanup world s c).see p).waiting = false := by
  refine waiting_upd ?_ fun _ _ => rfl
  rw [see_ipc hw _ hp]
  exact h

/-- Neither does the adoption of one child. -/
theorem waiting_adopt (hw : KernelOnly world) (hp : InTable p)
    (h : (s.see p).waiting = false) :
    ((adopt world c s i).see p).waiting = false := by
  have hset : ((s.upd i (setParent INIT)).see p).waiting = false :=
    waiting_upd h fun _ hx => hx
  rw [adopt]
  split
  · dsimp only
    split
    · exact waiting_procCleanup hw hp (waiting_upd hset fun _ _ => rfl)
    · exact hset
  · exact h

/-- Neither does the adoption of all of them. -/
theorem waiting_adoptAll (hw : KernelOnly world) (hp : InTable p) :
    ∀ {n : Nat} {i : Int} {s : Pm}, (s.see p).waiting = false →
      ((adoptAll world c n i s).see p).waiting = false := by
  intro n
  induction n with
  | zero => exact fun h => h
  | succ n ih => exact fun h => ih (waiting_adopt hw hp h)

/-- An adoption takes back no report. -/
theorem reports_adopt (world : World) (c : Int) (s : Pm) (i : Int) :
    s.reports <+: (adopt world c s i).reports := by
  rw [adopt]
  split
  · dsimp only
    split
    · exact List.prefix_append _ _
    · exact List.prefix_refl _
  · exact List.prefix_refl _

/-- The adoptions take back no report. -/
theorem reports_adoptAll (world : World) (c : Int) : ∀ n i (s : Pm),
    s.reports <+: (adoptAll world c n i s).reports := by
  intro n
  induction n with
  | zero => exact fun _ _ => List.prefix_refl _
  | succ n ih =>
      exact fun i s => (reports_adopt world c s i).trans (ih _ _)

/-- What the exit of `c` with `status` does for its parent `p`. -/
structure Woken (s s' : Pm) (p c status : Int) : Prop where
  running : (s'.see p).waiting = false
  reported : ∃ new, s'.reports = s.reports ++ new ∧ ⟨c, status, p⟩ ∈ new

/-- **WAKE UP**: a child that exits wakes the parent that waits. -/
theorem doExit_wakes (hw : KernelOnly world) (hp : InTable p) (hpc : p ≠ c)
    (h : Child s p c) (hwait : (s.see p).waiting = true) (status : Int) :
    Woken s (doExit world s c status) p c status := by
  have hpar : (s.table c).pParent = p := h.parent
  obtain ⟨s₂, hs₂⟩ : ∃ s₂, s₂ = { (s.ipc world).upd c
      (fun p => { p with exitStatus := status }) with
    exits := s.exits ++ [(c, status)] } := ⟨_, rfl⟩
  have hself : s₂.see c = { s.see c with exitStatus := status } := by
    rw [hs₂, ← see_ipc hw s h.inTable]
    exact see_upd_self (s.ipc world) c _
  have hother : s₂.see p = s.see p := by
    rw [hs₂]
    exact (see_upd_of_ne (s.ipc world) _ hpc).trans (see_ipc hw s hp)
  have hwait₂ : (s₂.table p).procState.waiting = true := by
    rw [← hwait, ← hother]
    rfl
  -- the message goes out before the children are adopted
  obtain ⟨s₃, hs₃⟩ : ∃ s₃, s₃ =
    procCleanup world (s₂.upd p (setWaiting false)) c := ⟨_, rfl⟩
  have hexit : doExit world s c status = adoptAll world c 37 0 s₃ := by
    have hreport : reportOrHang world c p s₂ = s₃ := by
      rw [reportOrHang, if_pos hwait₂, hs₃]
    rw [← hreport, hs₂, ← hpar]
    rfl
  have hstop : (s₃.see p).waiting = false := by
    rw [hs₃]
    refine waiting_procCleanup hw hp ?_
    rw [see_upd_self]
    rfl
  have hsent : s₃.reports = s.reports ++ [⟨c, status, p⟩] := by
    have hrow : ((s₂.upd p (setWaiting false)).see c) = s₂.see c :=
      see_upd_of_ne s₂ _ (Ne.symm hpc)
    have hstatus : ((s₂.upd p (setWaiting false)).table c).exitStatus =
        status := (congrArg View.exitStatus (hrow.trans hself)).trans rfl
    have hreceiver : ((s₂.upd p (setWaiting false)).table c).pParent = p :=
      (congrArg View.pParent (hrow.trans hself)).trans hpar
    have hreports : s₂.reports = s.reports := by rw [hs₂]; rfl
    rw [hs₃, ← hreports]
    show s₂.reports ++ [_] = _
    rw [hstatus, hreceiver]
  rw [hexit]
  refine ⟨waiting_adoptAll hw hp hstop, ?_⟩
  obtain ⟨more, hmore⟩ := reports_adoptAll world c 37 0 s₃
  rw [← hmore, hsent, List.append_assoc]
  exact ⟨_, rfl, List.mem_append_left _ (List.mem_singleton_self _)⟩

/-- `t` is reached from `s` while `p` is WAITING all the time. -/
def Waits (p : Int) : Pm → Pm → Prop :=
  ReflTransGen fun s t => (∃ e, Step s e t) ∧ (t.see p).waiting = true

/-- Whatever happens while `p` is WAITING, `c` is a living child of it, and
    wakes it when it exits. -/
def WillWake (s : Pm) (p c : Int) : Prop :=
  ∀ t, Waits p s t → Child t p c ∧ ∀ status t',
    Step t (.handle c (.exit status)) t' → Woken t t' p c status

/-- **RUN**: a living child of a WAITING process will wake it. -/
theorem child_wakes (hinv : Inv s none 37 none) (hp : InTable p)
    (h : Child s p c) (hwait : (s.see p).waiting = true) :
    WillWake s p c := by
  have hexit : ∀ {t t'} {status : Int}, Inv t none 37 none → Child t p c →
      (t.see p).waiting = true → Step t (.handle c (.exit status)) t' →
      Woken t t' p c status := by
    intro t t' status hinv h hwait hstep
    cases hstep with
    | handle hreq hw hcall =>
        rename_i world memorySize
        have hpc : p ≠ c := by
          rintro rfl
          have hmay := (hinv.inbox p _ hreq).waiting
          exact absurd (hwait.symm.trans hmay) (by decide)
        obtain rfl := pure_eq_ok.mp hcall
        obtain ⟨hrun, new, hnew, hmem⟩ := doExit_wakes (s := Pm.received t c)
          hw hp hpc ⟨h.inTable, h.alive, h.parent⟩ hwait status
        exact ⟨hrun, new, hnew, hmem⟩
  have hrun : ∀ t, Waits p s t → Inv t none 37 none ∧ Child t p c ∧
      (t.see p).waiting = true := by
    intro t ht
    induction ht with
    | refl => exact ⟨hinv, h, hwait⟩
    | tail _ hstep ih =>
        obtain ⟨⟨e, he⟩, hstill⟩ := hstep
        obtain ⟨hinv, h, hwait⟩ := ih
        refine ⟨(inv_step hinv he).1, ?_, hstill⟩
        rcases child_step hinv h hwait he with hchild | ⟨status, rfl⟩
        · exact hchild
        · -- after that exit it is not WAITING
          have hwoken := (hexit hinv h hwait he).running
          exact absurd (hstill.symm.trans hwoken) (by decide)
  intro t ht
  obtain ⟨hinv, h, hwait⟩ := hrun t ht
  exact ⟨h, fun status t' hstep => hexit hinv h hwait hstep⟩

/-! ## What `wait` should do -/

/-- The error answer to `p`. -/
def Answered (sent : List Sent) (p : Int) : Prop :=
  ∃ m, ⟨p, m⟩ ∈ sent ∧ m.type = SYSCALL_RET ∧ m.pid = NO_TASK

instance (sent : List Sent) (p : Int) : Decidable (Answered sent p) :=
  decidable_of_iff (∃ x ∈ sent, x.receiver = p ∧ x.msg.type = SYSCALL_RET ∧
    x.msg.pid = NO_TASK) <| by
  constructor
  · rintro ⟨⟨r, m⟩, hmem, rfl, hm⟩
    exact ⟨m, hmem, hm⟩
  · rintro ⟨m, hmem, hm⟩
    exact ⟨⟨p, m⟩, hmem, rfl, hm⟩

/-- A slot that is not free has `p` for a parent. -/
def HasChild (s : Pm) (p : Int) : Prop :=
  ∃ c, InTable c ∧ (s.table c).procState.freeSlot = false ∧
    (s.table c).pParent = p

/-- No child of `p` is HANGING. -/
def NoneHanging (s : Pm) (p : Int) : Prop :=
  ∀ c, InTable c → (s.table c).pParent = p →
    (s.table c).procState.hanging = false

/-- A process with nothing to wait for is told so, and another one waits for a
    child that will wake it. -/
def WaitReports (world : World) (s : Pm) (p : Int) : Prop :=
  (Answered (doWaitSent world s p).2 p ↔ ¬ HasChild s p) ∧
    (¬ Answered (doWaitSent world s p).2 p →
      ((doWaitSent world s p).1.see p).waiting = true ∧
        ∃ c, Child (doWaitSent world s p).1 p c ∧
          WillWake (doWaitSent world s p).1 p c)

/-- With a living child, `wait` does what it should. -/
theorem waitReports_of_child (world : World) (hinv : Inv s none 37 none)
    (hask : Asks s p) (hhang : NoneHanging s p) (h : HasChild s p) :
    WaitReports world s p := by
  obtain ⟨c, hc, hfree, hpar⟩ := h
  have hrun : doWaitSent world s p = (s.upd p (setWaiting true), []) :=
    (waitLoopSent_eq world (n := 37) (i := 0) 0 (by decide) (by decide) hhang).1
      (Or.inr ⟨c, hc, (inTable_iff.mp hc).1, hpar⟩)
  have hno : ¬ Answered (doWaitSent world s p).2 p := by
    rw [hrun]
    rintro ⟨m, hm, -⟩
    cases hm
  refine ⟨⟨fun ha => absurd ha hno, fun hn => absurd ⟨c, hc, hfree, hpar⟩ hn⟩,
    fun _ => ?_⟩
  have hchild : Child (s.upd p (setWaiting true)) p c :=
    Child.congr ⟨hc, ⟨hfree, hhang c hc hpar⟩, hpar⟩ (kin_setWaiting true)
  have hwait : ((s.upd p (setWaiting true)).see p).waiting = true := by
    rw [see_upd_self]
    rfl
  rw [hrun]
  exact ⟨hwait, c, hchild,
    child_wakes (inv_startWaiting hinv hask hhang) hask.inTable hchild hwait⟩

/-- Without one it is never told so: it waits for a slot that is free, or gets a
    message of type 0. -/
theorem not_waitReports (hhang : NoneHanging s p) (h : ¬ HasChild s p) :
    ¬ WaitReports world s p := by
  rintro ⟨hiff, -⟩
  obtain ⟨m, hm, htype, -⟩ := hiff.mpr h
  obtain ⟨hsome, hnone⟩ := waitLoopSent_eq world (n := 37) (i := 0)
    0 (by decide) (by decide) hhang
  by_cases hslot : ∃ q, InTable q ∧ 0 ≤ q ∧ (s.see q).pParent = p
  · rw [doWaitSent, hsome (Or.inr hslot)] at hm
    cases hm
  · rw [doWaitSent, hnone rfl fun q hq h0 hqp => hslot ⟨q, hq, h0, hqp⟩] at hm
    obtain rfl : m = noChildMsg := by simpa using hm
    exact absurd htype (by decide)

/-- **THE ANSWERS OF WAIT**: in every state of every run of fork, exit and wait
    requests, a process without a HANGING child is answered as it should be if
    and only if it has a living child. -/
theorem wait_answered (world : World) (h : Reach Boot Step free s)
    (hreq : s.inbox p = some .wait) (hhang : NoneHanging s p) :
    WaitReports world (Pm.received s p) p ↔ HasChild s p := by
  have hinv := inv_reach h
  have hmay := hinv.inbox p _ hreq
  have hbooks : Inv (Pm.received s p) none 37 none := by
    refine ⟨hinv.native, hinv.parent, hinv.noWait, hinv.free, hinv.trace, ?_⟩
    intro q req hq
    by_cases hqp : q = p
    · simp [Pm.received, hqp] at hq
    · simp only [Pm.received, hqp, if_false] at hq
      exact hinv.inbox q req hq
  have hask : Asks (Pm.received s p) p :=
    ⟨hmay.inTable, ⟨hmay.freeSlot, hmay.hanging⟩, hmay.waiting, if_pos rfl⟩
  have hhang' : NoneHanging (Pm.received s p) p :=
    fun c hc hpar => hhang c hc hpar
  constructor
  · intro hreports
    by_contra hno
    refine not_waitReports hhang' ?_ hreports
    rintro ⟨c, hchild⟩
    exact hno ⟨c, hchild⟩
  · rintro ⟨c, hchild⟩
    exact waitReports_of_child world hbooks hask hhang' ⟨c, hchild⟩

/-- A request that is made after a run. -/
def Pm.asked (s : Pm) (p : Int) (req : Request) : Pm :=
  { s with inbox := fun q => if q = p then some req else s.inbox q }

/-- The request that was just made is in the inbox. -/
theorem inbox_asked (s : Pm) (p : Int) (req : Request) :
    (Pm.asked s p req).inbox p = some req := if_pos rfl

/-- A process may make a request from every reachable state. -/
theorem reach_asked {req : Request} (h : Reach Boot Step free s)
    (hidle : s.inbox p = none) (hmay : MayIssue s.table p req) :
    Reach Boot Step free (Pm.asked s p req) :=
  .next h trivial (.issue hidle hmay)

/-! ## Three waits of INIT -/

/-- `NoneHanging` over the slots of the table. -/
theorem noneHanging_iff : NoneHanging s p ↔ ∀ c, 0 ≤ c → c < 37 →
    (s.table c).pParent = p → (s.table c).procState.hanging = false :=
  ⟨fun h c h0 h1 => h c ⟨h0, h1⟩, fun h c hc => h c hc.1 hc.2⟩

/-- `HasChild` over the slots of the table. -/
theorem not_hasChild_iff : ¬ HasChild s p ↔ ∀ c, 0 ≤ c → c < 37 →
    (s.table c).pParent = p → (s.table c).procState.freeSlot = true := by
  constructor
  · intro h c h0 h1 hpar
    by_contra hfree
    exact h ⟨c, ⟨h0, h1⟩, by simpa using hfree, hpar⟩
  · rintro h ⟨c, hc, hfree, hpar⟩
    rw [h c hc.1 hc.2 hpar] at hfree
    cases hfree

/-- A running process that is neither hanging nor waiting may wait. -/
theorem mayIssue_wait {T : Table} (hp : InTable p)
    (hfree : (T p).procState.freeSlot = false)
    (hhang : (T p).procState.hanging = false)
    (hwait : (T p).procState.waiting = false) : MayIssue T p .wait :=
  ⟨hp, hfree, hhang, hwait, fun _ h => by cases h⟩

/-- INIT has forked and waits: it will be woken. -/
theorem wait_answered_forked :
    WaitReports quiet (Pm.received (Pm.asked forkedPm INIT .wait) INIT) INIT := by
  have hmay : MayIssue forkedPm.table INIT .wait :=
    mayIssue_wait (by decide) (by decide +kernel) (by decide +kernel)
      (by decide +kernel)
  refine (wait_answered quiet (reach_asked forkedPm_reach rfl hmay)
    (inbox_asked ..) ?_).mpr ⟨9, by decide, by decide +kernel, by decide +kernel⟩
  exact noneHanging_iff.mpr (by decide +kernel)

/-- **THE CHILDLESS WAIT** is wrong twice.  At boot INIT gets a message whose
    type is 0; when its only child has exited and has been waited for, INIT
    gets none and is WAITING for good. -/
theorem wait_misreports :
    (∃ s, Reach Boot Step free s ∧ s.inbox INIT = some .wait ∧
      NoneHanging s INIT ∧ ¬ HasChild s INIT ∧
      (doWaitSent quiet (Pm.received s INIT) INIT).2 =
        [⟨INIT, ⟨SYSCALL_RET, 0, 0, NO_TASK⟩⟩] ∧
      ¬ WaitReports quiet (Pm.received s INIT) INIT) ∧
    ∃ s, Reach Boot Step free s ∧ s.inbox INIT = some .wait ∧
      NoneHanging s INIT ∧ ¬ HasChild s INIT ∧
      (doWaitSent quiet (Pm.received s INIT) INIT).2 = [] ∧
      ((doWaitSent quiet (Pm.received s INIT) INIT).1.see INIT).waiting =
        true ∧
      ¬ WaitReports quiet (Pm.received s INIT) INIT := by
  have hboot : MayIssue bootPm.table INIT .wait :=
    mayIssue_wait (by decide) (by decide +kernel) (by decide +kernel)
      (by decide +kernel)
  have hreaped : MayIssue reapedPm.table INIT .wait :=
    mayIssue_wait (by decide) (by decide +kernel) (by decide +kernel)
      (by decide +kernel)
  have hidle : reapedPm.inbox INIT = none := by decide +kernel
  refine ⟨⟨Pm.asked bootPm INIT .wait, reach_asked (.start bootPm_boot) rfl
      hboot, inbox_asked .., ?_, ?_, ?_, ?_⟩,
    Pm.asked reapedPm INIT .wait, reach_asked reapedPm_reach hidle hreaped,
    inbox_asked .., ?_, ?_, ?_, ?_, ?_⟩
  · exact noneHanging_iff.mpr (by decide +kernel)
  · exact not_hasChild_iff.mpr (by decide +kernel)
  · decide +kernel
  · exact not_waitReports (noneHanging_iff.mpr (by decide +kernel))
      (not_hasChild_iff.mpr (by decide +kernel))
  · exact noneHanging_iff.mpr (by decide +kernel)
  · exact not_hasChild_iff.mpr (by decide +kernel)
  · decide +kernel
  · decide +kernel
  · exact not_waitReports (noneHanging_iff.mpr (by decide +kernel))
      (not_hasChild_iff.mpr (by decide +kernel))

end KosWaitReplies
