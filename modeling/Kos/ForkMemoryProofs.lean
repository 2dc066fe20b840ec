import Kos.ProcessManagerProofs

/-! # The memory of forked processes

    `do_fork` with the memory it copies: the child gets the megabyte that
    belongs to its slot.

    * Every forked process has the descriptors of its own slot
      (`placed_reach`), so no two segments overlap;
    * `alloc_mem` compares the size of the parent's segment with the memory
      there is, not the megabyte of the child: the child is isolated exactly if
      that megabyte ends below `memory_size`, and the parent's segment is not
      of 2 GB and more (`fork_isolates_iff`, `fork_beyond_memory`). -/

namespace KosForkMemory

open FlatMemory KosKernel KosProcessManager GuardedRun
open KosIpc hiding Event Step

/-! ## `do_fork` -/

/-- `caller_T_size`. -/
def callerTSize (parent : Proc) : BitVec 32 :=
  segSize (segLimit parent.ldtC) parent.ldtC

/-- `do_fork` and what it does to memory. -/
def doForkMem (world : World) (memorySize : Int) (s : Pm) (mem : Mem)
    (parentPid : Int) : Except Halt (Pm × Mem × Option Int) :=
  match findFree s.table 37 0 with
  | none => pure (s, mem, none)
  | some childPid => do
      let parent := s.table parentPid
      let base ← childBase memorySize parent childPid
      let mem := copyLoop mem (BitVec.ofInt 32 base)
        (gdtLdtToBaseAddr parent.ldtC) (callerTSize parent).toNat
      let s := s.upd childPid fun _ => childProc parentPid base parent
      let s := (s.ipc world).ipc world
      pure (s, mem, some childPid)

/-- Without the memory it is the `do_fork` of the process manager. -/
theorem doForkMem_eq (world : World) (memorySize : Int) (s : Pm) (mem : Mem)
    (p : Int) :
    (doForkMem world memorySize s mem p).map (fun r => (r.1, r.2.2)) =
      doFork world memorySize s p := by
  rw [doForkMem, doFork]
  cases findFree s.table 37 0 with
  | none => rfl
  | some c =>
      dsimp only
      cases childBase memorySize (s.table p) c <;> rfl

/-! ## Segments -/

/-- The first byte of a segment, and the number of its bytes. -/
def segBase (d : GdtDesc) : Nat := (gdtLdtToBaseAddr d).toNat

/-- The bytes of a segment. -/
def segBytes (d : GdtDesc) : Nat :=
  ((segLimit d).toNat + 1) * if d.limitHighAttr2 &&& 0x80 ≠ 0 then 4096 else 1

/-- The code and the data descriptor. -/
def ldts (p : Proc) : GdtDesc × GdtDesc := (p.ldtC, p.ldtRw)

/-- `d` is one of the two descriptors of `p`. -/
def InLdt (d : GdtDesc) (p : Proc) : Prop := d = p.ldtC ∨ d = p.ldtRw

/-- Where the memory of slot `c` starts. -/
def slotBase (c : Int) : Int :=
  PROC_BASE + (c - (NR_TASKS_NATIVE + NR_PROCS_NATIVE)) * PROC_SIZE

/-- What a fork of process `p` promises about the child `c`. -/
structure Isolates (world : World) (memorySize : Int) (s : Pm) (p : Int)
    (s' : Pm) (c : Int) : Prop where
  /-- a megabyte, below `memory_size` -/
  below : ∀ d, InLdt d (s'.table c) → segBytes d = PROC_SIZE ∧
    segBase d + segBytes d ≤ memorySize
  /-- no byte of any other forked process -/
  apart : ∀ q, InTable q → NR_TASKS_NATIVE + NR_PROCS_NATIVE ≤ q → q ≠ c →
    (s'.table q).procState ≠ FREE_SLOT →
    ∀ d e, InLdt d (s'.table c) → InLdt e (s'.table q) →
      segBase d + segBytes d ≤ segBase e ∨ segBase e + segBytes e ≤ segBase d
  /-- the parent's bytes, and nothing else, have been copied -/
  copied : ∀ mem, ∃ mem',
    doForkMem world memorySize s mem p = .ok (s', mem', some c) ∧
    ∀ d, InLdt d (s'.table c) →
      (∀ i, i < (callerTSize (s.table p)).toNat →
        readBlock mem' (gdtLdtToBaseAddr d) i =
          readBlock mem (gdtLdtToBaseAddr (s.table p).ldtC) i) ∧
      ∀ x, ¬ InBlock (gdtLdtToBaseAddr d) (callerTSize (s.table p)).toNat x →
        mem' x = mem x

/-- The megabyte of slot `c` is there, and the size of the parent's segment is
    not negative as an `int`. -/
def Fits (memorySize : Int) (s : Pm) (p c : Int) : Prop :=
  slotBase c + PROC_SIZE ≤ memorySize ∧ 0 ≤ (callerTSize (s.table p)).toInt

/-! ## The descriptors stay as `do_fork` makes them -/

/-- The same descriptors in every entry. -/
def SameLdts (s s' : Pm) : Prop :=
  ∀ q, InTable q → ldts (s'.table q) = ldts (s.table q)

variable {world : World} {s s' s'' : Pm}

/-- The segments stay through two steps. -/
theorem sameLdts_trans (h : SameLdts s s') (h' : SameLdts s' s'') :
    SameLdts s s'' := fun q hq => (h' q hq).trans (h q hq)

/-- They are part of what messages leave alone. -/
theorem ldts_of_rest {p q : Proc} (h : rest p = rest q) : ldts p = ldts q := by
  show ldts (rest p) = ldts (rest q)
  rw [h]

/-- A message leaves them. -/
theorem sameLdts_ipc (hw : KernelOnly world) (s : Pm) :
    SameLdts s (s.ipc world) :=
  fun _ hq => ldts_of_rest (rest_world hw s.ipcs s.table hq)

/-- A change of an entry that leaves them. -/
theorem sameLdts_upd (s : Pm) (p : Int) {f : Proc → Proc}
    (hf : ∀ x, ldts (f x) = ldts x) : SameLdts s (s.upd p f) := by
  intro q _
  by_cases hqp : q = p
  · subst hqp
    exact (congrArg ldts (upd_self s.table q f)).trans (hf _)
  · exact congrArg ldts (upd_of_ne s.table f hqp)

theorem table_upd_of_ne (s : Pm) {p q : Int} (f : Proc → Proc) (h : q ≠ p) :
    (s.upd p f).table q = s.table q := upd_of_ne s.table f h

theorem table_upd_self (s : Pm) (p : Int) (f : Proc → Proc) :
    (s.upd p f).table p = f (s.table p) := upd_self s.table p f

/-- `proc_cleanup` leaves them. -/
theorem sameLdts_procCleanup (hw : KernelOnly world) (s : Pm) (c : Int) :
    SameLdts s (procCleanup world s c) := by
  intro q hq
  rw [procCleanup]
  refine (sameLdts_upd _ c (f := setFree) (fun _ => rfl) q hq).trans ?_
  exact sameLdts_ipc hw { s with reports := _ } q hq

theorem sameLdts_waiting (s : Pm) (p : Int) (b : Bool) :
    SameLdts s (s.upd p (setWaiting b)) := sameLdts_upd s p fun _ => rfl

/-- So does a new parent. -/
theorem sameLdts_adopt (hw : KernelOnly world) (c : Int) (s : Pm) (i : Int) :
    SameLdts s (adopt world c s i) := by
  rw [adopt]
  split
  · have hpar : SameLdts s (s.upd i (setParent INIT)) :=
      sameLdts_upd s i fun _ => rfl
    dsimp only
    split
    · exact sameLdts_trans hpar (sameLdts_trans (sameLdts_waiting _ INIT false)
        (sameLdts_procCleanup hw _ i))
    · exact hpar
  · exact fun _ _ => rfl

theorem sameLdts_adoptAll (hw : KernelOnly world) (c : Int) :
    ∀ (n : Nat) (i : Int) (s : Pm), SameLdts s (adoptAll world c n i s) := by
  intro n
  induction n with
  | zero => intro i s _ _; rfl
  | succ n ih =>
      intro i s
      exact sameLdts_trans (sameLdts_adopt hw c s i) (ih (i + 1) _)

/-- So does the report of a status. -/
theorem sameLdts_reportOrHang (hw : KernelOnly world) (c p : Int) (s : Pm) :
    SameLdts s (reportOrHang world c p s) := by
  rw [reportOrHang]
  split
  · exact sameLdts_trans (sameLdts_waiting s p false)
      (sameLdts_procCleanup hw _ c)
  · exact sameLdts_upd s c fun _ => rfl

/-- **AN EXIT** leaves the segments. -/
theorem sameLdts_doExit (hw : KernelOnly world) (s : Pm) (c status : Int) :
    SameLdts s (doExit world s c status) := by
  intro q hq
  rw [doExit]
  refine (sameLdts_adoptAll hw c 37 0 _ q hq).trans ?_
  refine (sameLdts_reportOrHang hw c _ _ q hq).trans ?_
  refine (sameLdts_upd (s.ipc world) c
    (f := fun p => { p with exitStatus := status }) (fun _ => rfl) q hq).trans ?_
  exact sameLdts_ipc hw s q hq

/-- So does the loop of `do_wait`. -/
theorem sameLdts_waitLoop (hw : KernelOnly world) (p : Int) :
    ∀ (n : Nat) (i : Int) (k : Nat) (s : Pm),
      SameLdts s (waitLoop world p n i k s) := by
  intro n
  induction n with
  | zero =>
      intro i k s
      rw [waitLoop]
      split
      · exact sameLdts_upd s p fun _ => rfl
      · exact sameLdts_ipc hw s
  | succ n ih =>
      intro i k s
      rw [waitLoop]
      split
      · split
        · exact sameLdts_procCleanup hw s i
        · exact ih (i + 1) (k + 1) s
      · exact ih (i + 1) k s

/-! ## Every process in its slot -/

/-- The descriptors that `do_fork` puts into slot `c`. -/
def slotLdts (c : Int) : GdtDesc × GdtDesc :=
  ldts (childProc 0 (slotBase c) freeProc)

/-- The segments of native processes start at 0; a slot has never been used,
    or has its own descriptors. -/
structure Placed (s : Pm) : Prop where
  native : ∀ q, InTable q → q < NR_TASKS_NATIVE + NR_PROCS_NATIVE →
    segBase (s.table q).ldtC = 0
  forked : ∀ q, InTable q → NR_TASKS_NATIVE + NR_PROCS_NATIVE ≤ q →
    ldts (s.table q) = ldts freeProc ∨ ldts (s.table q) = slotLdts q

/-- With them the places of the segments. -/
theorem placed_sameLdts (h : Placed s) (hsame : SameLdts s s') :
    Placed s' := by
  refine ⟨fun q hq hlt => ?_, fun q hq hge => ?_⟩
  · have heq : (s'.table q).ldtC = (s.table q).ldtC :=
      congrArg Prod.fst (hsame q hq)
    rw [heq]
    exact h.native q hq hlt
  · rw [hsame q hq]
    exact h.forked q hq hge

/-- What the checks of `do_fork` and `alloc_mem` let through. -/
theorem childBase_eq_ok {memorySize base c : Int} {parent : Proc}
    (h : childBase memorySize parent c = .ok base) :
    NR_TASKS_NATIVE + NR_PROCS_NATIVE ≤ c ∧ base = slotBase c ∧
      (callerTSize parent).toInt ≤ PROC_SIZE := by
  simp only [childBase, allocMem, bind_eq_ok, assert_eq_ok,
    exists_const] at h
  obtain ⟨-, hc, h⟩ := h
  split at h
  · cases h
  · rename_i hsize
    split at h
    · cases h
    · exact ⟨hc, (pure_eq_ok.mp h).symm, Int.not_lt.mp hsize⟩

/-- The child gets the descriptors of its slot, and no other entry changes. -/
theorem placed_doFork (hw : KernelOnly world) (h : Placed s) {memorySize p : Int}
    {res : Pm × Option Int}
    (hcall : doFork world memorySize s p = .ok res) : Placed res.1 := by
  unfold doFork at hcall
  cases hfind : findFree s.table 37 0 with
  | none =>
      rw [hfind, pure_eq_ok] at hcall
      subst hcall
      exact h
  | some c =>
      rw [hfind] at hcall
      simp only [bind_eq_ok, pure_eq_ok] at hcall
      obtain ⟨base, hbase, rfl⟩ := hcall
      obtain ⟨hge, rfl, -⟩ := childBase_eq_ok hbase
      refine placed_sameLdts ?_ (sameLdts_trans
        (sameLdts_ipc hw _) (sameLdts_ipc hw _))
      refine ⟨fun q hq hlt => ?_, fun q hq hqge => ?_⟩
      · have hne : q ≠ c := by omega
        rw [table_upd_of_ne s _ hne]
        exact h.native q hq hlt
      · by_cases hqc : q = c
        · subst hqc
          rw [table_upd_self]
          exact Or.inr rfl
        · rw [table_upd_of_ne s _ hqc]
          exact h.forked q hq hqge

/-- **STEP**: fork, exit, wait and every kernel call. -/
theorem placed_step {e : Event} (h : Placed s) (hstep : Step s e s') :
    Placed s' := by
  cases hstep with
  | kernel hcall =>
      exact placed_sameLdts h fun q hq => ldts_of_rest (rest_step hcall hq)
  | issue _ _ => exact ⟨h.native, h.forked⟩
  | handle hreq hw hcall =>
      rename_i world memorySize p req
      let s₁ : Pm := { s with
        inbox := fun q => (if q = p then none else s.inbox q) }
      have h₁ : Placed s₁ := ⟨h.native, h.forked⟩
      change taskPm world memorySize s₁ p req = .ok s' at hcall
      cases req with
      | fork =>
          simp only [taskPm, bind_eq_ok, pure_eq_ok] at hcall
          obtain ⟨res, hres, rfl⟩ := hcall
          exact placed_sameLdts (placed_doFork hw h₁ hres) (sameLdts_ipc hw _)
      | exit status =>
          obtain rfl := pure_eq_ok.mp hcall
          exact placed_sameLdts h₁ (sameLdts_doExit hw s₁ p status)
      | wait =>
          obtain rfl := pure_eq_ok.mp hcall
          exact placed_sameLdts h₁ (sameLdts_waitLoop hw p 37 0 0 s₁)

/-- Where the segments are at boot. -/
theorem placed_boot (h : Boot s) : Placed s := by
  obtain ⟨kTop, outside, htab⟩ := h.table
  refine ⟨fun q hq hlt => ?_, fun q hq hge => Or.inl ?_⟩ <;>
    rw [htab, initProcess, if_neg (by simpa using hq)]
  · rw [if_neg (by omega), segBase]
    split
    · exact congrArg BitVec.toNat (gdtLdtToBaseAddr_makeGdtDesc _ _ _)
    · exact congrArg BitVec.toNat (gdtLdtToBaseAddr_makeGdtDesc 0 0xFFFFF
        (DA_32 ||| DA_LIMIT_4K ||| DA_C))
  · rw [if_pos hge]

/-- In every state of every run. -/
theorem placed_reach (h : Reach Boot Step free s) : Placed s :=
  reach_invariant Placed (fun _ h => placed_boot h)
    (fun _ _ _ h _ hstep => placed_step h hstep) h

/-! ## The megabyte of a slot -/

/-- The slots lie between 10 MB and 38 MB. -/
theorem slotBase_bounds {c : Int} (hc : InTable c)
    (hge : NR_TASKS_NATIVE + NR_PROCS_NATIVE ≤ c) :
    (BitVec.ofInt 32 (slotBase c)).toNat = (slotBase c).toNat ∧
      0xA00000 ≤ slotBase c ∧ slotBase c ≤ 0x2500000 := by
  have hbounds : 0xA00000 ≤ slotBase c ∧ slotBase c ≤ 0x2500000 := by
    simp only [slotBase, PROC_BASE, PROC_SIZE, NR_TASKS_NATIVE,
      NR_PROCS_NATIVE, InTable, NR_PROCS_MAX] at hc hge ⊢
    omega
  refine ⟨?_, hbounds⟩
  rw [BitVec.toNat_ofInt]
  omega

/-- The base of a segment has nothing to do with its size. -/
theorem segBytes_congr {d e : GdtDesc} (hlow : d.limitLow = e.limitLow)
    (hhigh : d.limitHighAttr2 = e.limitHighAttr2) :
    segBytes d = segBytes e := by
  rw [segBytes, segBytes, segLimit, segLimit, hlow, hhigh]

/-- Both segments of a slot are its megabyte. -/
theorem inLdt_slot {d : GdtDesc} {p : Proc} {c : Int} (hd : InLdt d p)
    (hldts : ldts p = slotLdts c) :
    segBase d = (BitVec.ofInt 32 (slotBase c)).toNat ∧
      segBytes d = 0x100000 := by
  obtain ⟨hC, hRw⟩ := Prod.mk.inj hldts
  have hmake : ∀ attr : BitVec 16, gdtLdtToBaseAddr (makeGdtDesc
      (BitVec.ofInt 32 (slotBase c))
      (BitVec.ofInt 32 (PROC_SIZE - 1) >>> LIMIT_4K_SHIFT) attr) =
      BitVec.ofInt 32 (slotBase c) :=
    fun attr => gdtLdtToBaseAddr_makeGdtDesc _ _ attr
  rcases hd with rfl | rfl
  · rw [hC]
    refine ⟨congrArg BitVec.toNat (hmake _), ?_⟩
    have hsame := segBytes_congr
      (d := (childProc 0 (slotBase c) freeProc).ldtC)
      (e := (childProc 0 0 freeProc).ldtC) rfl rfl
    exact hsame.trans (by decide +kernel)
  · rw [hRw]
    refine ⟨congrArg BitVec.toNat (hmake _), ?_⟩
    have hsame := segBytes_congr
      (d := (childProc 0 (slotBase c) freeProc).ldtRw)
      (e := (childProc 0 0 freeProc).ldtRw) rfl rfl
    exact hsame.trans (by decide +kernel)

/-- A slot that was never used has a segment of one byte, at 0. -/
theorem inLdt_unused {d : GdtDesc} {p : Proc} (hd : InLdt d p)
    (hldts : ldts p = ldts freeProc) : segBase d = 0 ∧ segBytes d = 1 := by
  obtain ⟨hC, hRw⟩ := Prod.mk.inj hldts
  rcases hd with rfl | rfl
  · rw [hC]
    decide +kernel
  · rw [hRw]
    decide +kernel

/-- The size depends on two fields. -/
theorem callerTSize_congr {p q : Proc}
    (hlow : p.ldtC.limitLow = q.ldtC.limitLow)
    (hhigh : p.ldtC.limitHighAttr2 = q.ldtC.limitHighAttr2) :
    callerTSize p = callerTSize q := by
  rw [callerTSize, callerTSize, segSize, segSize, segLimit, segLimit, hlow,
    hhigh]

/-- The size that `do_fork` computes for a process in its slot. -/
theorem callerTSize_slot {p : Proc} {c : Int} (hldts : ldts p = slotLdts c) :
    callerTSize p = 0x100000 := by
  obtain ⟨hC, -⟩ := Prod.mk.inj hldts
  have hsame : callerTSize p = callerTSize (childProc 0 0 freeProc) :=
    callerTSize_congr (by rw [hC]; rfl) (by rw [hC]; rfl)
  exact hsame.trans (by decide +kernel)

/-- The size that an unused entry gives. -/
theorem callerTSize_unused {p : Proc} (hldts : ldts p = ldts freeProc) :
    callerTSize p = 1 := by
  obtain ⟨hC, -⟩ := Prod.mk.inj hldts
  have hsame : callerTSize p = callerTSize freeProc :=
    callerTSize_congr (by rw [hC]) (by rw [hC])
  exact hsame.trans (by decide +kernel)

/-! ## Isolation -/

/-- A fork that returns 0. -/
theorem doFork_eq_some {memorySize p c : Int}
    (h : doFork world memorySize s p = .ok (s', some c)) :
    findFree s.table 37 0 = some c ∧
      childBase memorySize (s.table p) c = .ok (slotBase c) ∧
      s' = ((s.upd c fun _ =>
        childProc p (slotBase c) (s.table p)).ipc world).ipc world := by
  unfold doFork at h
  cases hfind : findFree s.table 37 0 with
  | none =>
      rw [hfind, pure_eq_ok] at h
      cases (Prod.mk.inj h).2
  | some c' =>
      rw [hfind] at h
      simp only [bind_eq_ok, pure_eq_ok, Prod.mk.injEq, Option.some.injEq] at h
      obtain ⟨base, hbase, rfl, rfl⟩ := h
      obtain ⟨-, rfl, -⟩ := childBase_eq_ok hbase
      exact ⟨rfl, hbase, rfl⟩

/-- The memory after it. -/
theorem doForkMem_eq_some {memorySize p c : Int}
    (h : doFork world memorySize s p = .ok (s', some c)) (mem : Mem) :
    doForkMem world memorySize s mem p = .ok (s', copyLoop mem
      (BitVec.ofInt 32 (slotBase c)) (gdtLdtToBaseAddr (s.table p).ldtC)
      (callerTSize (s.table p)).toNat, some c) := by
  obtain ⟨hfind, hbase, rfl⟩ := doFork_eq_some h
  rw [doForkMem, hfind]
  dsimp only
  rw [hbase]
  rfl

section Fork

variable {memorySize p c : Int}

/-- What is known when PM forks `c` off `p`. -/
structure Forking (s : Pm) (p c : Int) : Prop where
  placed : Placed s
  parent : InTable p
  child : InTable c
  forked : NR_TASKS_NATIVE + NR_PROCS_NATIVE ≤ c
  ne : p ≠ c

/-- The state of a fork that returns 0. -/
theorem forking_of_request (h : Reach Boot Step free s)
    (hreq : s.inbox p = some .fork)
    (hfork : doFork world memorySize s p = .ok (s', some c)) :
    Forking s p c := by
  have hmay := (inv_reach h).inbox p .fork hreq
  obtain ⟨hfind, hbase, -⟩ := doFork_eq_some hfork
  obtain ⟨hc, hslot⟩ :=
    findFree_eq_some (n := 37) (i := 0) (by decide) (by decide) hfind
  refine ⟨placed_reach h, hmay.inTable, hc, (childBase_eq_ok hbase).1, ?_⟩
  rintro rfl
  have hfree := hmay.freeSlot
  rw [hslot] at hfree
  cases hfree

/-- Where the parent's segment is: at 0, or in its own slot. -/
theorem parent_place (h : Forking s p c) :
    segBase (s.table p).ldtC = 0 ∨
      (segBase (s.table p).ldtC = (slotBase p).toNat ∧
        NR_TASKS_NATIVE + NR_PROCS_NATIVE ≤ p) := by
  by_cases hp : p < NR_TASKS_NATIVE + NR_PROCS_NATIVE
  · exact Or.inl (h.placed.native p h.parent hp)
  · have hge : NR_TASKS_NATIVE + NR_PROCS_NATIVE ≤ p := by omega
    rcases h.placed.forked p h.parent hge with hun | hslot
    · exact Or.inl (inLdt_unused (Or.inl rfl) hun).1
    · refine Or.inr ⟨?_, hge⟩
      rw [(inLdt_slot (Or.inl rfl) hslot).1]
      exact (slotBase_bounds h.parent hge).1

/-- The slots of two processes share nothing. -/
theorem slotBase_apart {q c : Int} (h : q ≠ c) :
    slotBase q + PROC_SIZE ≤ slotBase c ∨
      slotBase c + PROC_SIZE ≤ slotBase q := by
  simp only [slotBase, PROC_SIZE]
  omega

/-- A parent's segment of a megabyte at most shares nothing with the child's
    slot, so the loop copies it. -/
theorem copyLoop_fork (h : Forking s p c) {n : Nat} (hn : n ≤ 0x100000)
    (mem : Mem) :
    copyLoop mem (BitVec.ofInt 32 (slotBase c))
        (gdtLdtToBaseAddr (s.table p).ldtC) n =
      copy mem (BitVec.ofInt 32 (slotBase c))
        (gdtLdtToBaseAddr (s.table p).ldtC) n := by
  obtain ⟨hnat, hlo, hhi⟩ := slotBase_bounds h.child h.forked
  refine copyLoop_eq_copy (by omega) fun i hi => ?_
  rcases parent_place h with hzero | ⟨hown, hge⟩
  · rw [segBase] at hzero
    refine not_inBlock_of_le hi ?_ ?_ ?_ <;> omega
  · rw [segBase] at hown
    obtain ⟨-, hlo', hhi'⟩ := slotBase_bounds h.parent hge
    have hapart := slotBase_apart h.ne
    simp only [PROC_SIZE] at hapart
    refine not_inBlock_of_le hi ?_ ?_ ?_ <;> omega

/-- The descriptors after the fork. -/
theorem slots_after (hw : KernelOnly world) (h : Forking s p c)
    (hfork : doFork world memorySize s p = .ok (s', some c)) :
    ldts (s'.table c) = slotLdts c ∧ Placed s' := by
  obtain ⟨-, -, rfl⟩ := doFork_eq_some hfork
  refine ⟨?_, placed_doFork hw h.placed hfork⟩
  have hkept := sameLdts_trans
    (sameLdts_ipc hw (s.upd c fun _ => childProc p (slotBase c) (s.table p)))
    (sameLdts_ipc hw _) c h.child
  rw [hkept, table_upd_self]
  rfl

/-- **FORK ISOLATES MEMORY** exactly if the megabyte of the child's slot ends
    below `memory_size` and the size of the parent's segment is not negative
    as an `int`. -/
theorem fork_isolates_iff (h : Reach Boot Step free s)
    (hreq : s.inbox p = some .fork) (hw : KernelOnly world)
    (hfork : doFork world memorySize s p = .ok (s', some c)) :
    Isolates world memorySize s p s' c ↔ Fits memorySize s p c := by
  have hforking := forking_of_request h hreq hfork
  obtain ⟨hslot, hplaced⟩ := slots_after hw hforking hfork
  obtain ⟨hnat, hlo, hhi⟩ := slotBase_bounds hforking.child hforking.forked
  have hbase : ∀ d, InLdt d (s'.table c) →
      gdtLdtToBaseAddr d = BitVec.ofInt 32 (slotBase c) := fun d hd =>
    BitVec.eq_of_toNat_eq (inLdt_slot hd hslot).1
  obtain ⟨-, hok, -⟩ := doFork_eq_some hfork
  obtain ⟨-, -, hsize⟩ := childBase_eq_ok hok
  have hsmall := (callerTSize (s.table p)).isLt
  constructor
  · intro hiso
    refine ⟨?_, ?_⟩
    · obtain ⟨hbytes, hle⟩ := hiso.below _ (Or.inl rfl)
      rw [(inLdt_slot (Or.inl rfl) hslot).1, hnat, hbytes] at hle
      omega
    · by_contra hneg
      -- only a native process has such a segment, and it starts at 0
      have hsrc : gdtLdtToBaseAddr (s.table p).ldtC = 0 := by
        rcases parent_place hforking with hzero | ⟨-, hge⟩
        · exact BitVec.eq_of_toNat_eq hzero
        · rcases hforking.placed.forked p hforking.parent hge with hun | hown
          · rw [callerTSize_unused hun] at hneg
            exact absurd (by decide) hneg
          · rw [callerTSize_slot hown] at hneg
            exact absurd (by decide) hneg
      have hdst : BitVec.ofInt 32 (slotBase c) ≠ (0 : Addr) := by
        intro heq
        have hzero := congrArg BitVec.toNat heq
        rw [hnat] at hzero
        simp only [BitVec.ofNat_eq_ofNat, BitVec.toNat_ofNat] at hzero
        omega
      have hlt : (BitVec.ofInt 32 (slotBase c) - (0 : Addr)).toNat <
          (callerTSize (s.table p)).toNat := by
        rw [BitVec.toInt_eq_toNat_cond] at hneg
        split at hneg <;> simp only [BitVec.ofNat_eq_ofNat, BitVec.sub_zero,
          hnat] <;> omega
      obtain ⟨mem', hmem', hcopied⟩ :=
        hiso.copied fun x => if x = 0 then 1 else 0
      obtain ⟨hread, -⟩ := hcopied _ (Or.inl rfl)
      rw [doForkMem_eq_some hfork] at hmem'
      obtain rfl := (Prod.mk.inj (Prod.mk.inj (Except.ok.inj hmem')).2).1
      have hoff := hread _ hlt
      rw [hbase _ (Or.inl rfl), hsrc, readBlock, readBlock,
        BitVec.ofNat_toNat, BitVec.setWidth_eq,
        copyLoop_overlap _ (Nat.le_of_lt hsmall) hdst hlt] at hoff
      exact hdst (by simpa using hoff)
  · rintro ⟨hbelow, hpos⟩
    have hn : (callerTSize (s.table p)).toNat ≤ 0x100000 := by
      rw [PROC_SIZE] at hsize
      rw [BitVec.toInt_eq_toNat_cond] at hpos hsize
      split at hpos <;> omega
    refine ⟨?_, ?_, ?_⟩
    · intro d hd
      obtain ⟨hd0, hd1⟩ := inLdt_slot hd hslot
      rw [hd0, hd1, hnat]
      rw [PROC_SIZE] at hbelow ⊢
      exact ⟨rfl, by omega⟩
    · intro q hq hge hne _ d e hd he
      obtain ⟨hd0, hd1⟩ := inLdt_slot hd hslot
      rw [hd0, hd1, hnat]
      rcases hplaced.forked q hq hge with hun | hown
      · obtain ⟨he0, he1⟩ := inLdt_unused he hun
        rw [he0, he1]
        omega
      · obtain ⟨he0, he1⟩ := inLdt_slot he hown
        obtain ⟨hnatq, hloq, -⟩ := slotBase_bounds hq hge
        rw [he0, he1, hnatq]
        have hapart := slotBase_apart hne
        simp only [PROC_SIZE] at hapart
        omega
    · intro mem
      refine ⟨_, doForkMem_eq_some hfork mem, fun d hd => ?_⟩
      rw [hbase d hd, copyLoop_fork hforking hn]
      exact ⟨fun i hi => readBlock_copy (by omega) hi, fun x hx => copy_out hx⟩

end Fork

/-! ## INIT forks -/

/-- INIT has asked for a fork right after boot, with the kernel image ending
    at `kTop`. -/
def askingPm (kTop : BitVec 32) : Pm where
  table := initProcess kTop fun _ => freeProc
  ipcs := 0
  reports := []
  exits := []
  inbox := fun q => if q = INIT then some .fork else none

theorem askingPm_reach (kTop : BitVec 32) :
    Reach Boot Step free (askingPm kTop) := by
  have hboot : Boot { askingPm kTop with inbox := fun _ => none } :=
    ⟨⟨_, _, rfl⟩, rfl, rfl, fun _ => rfl⟩
  refine .next (.start hboot) (e := .issue INIT .fork) trivial
    (.issue rfl ⟨by decide, rfl, rfl, rfl, fun status hs => ?_⟩)
  cases hs

theorem doFork_asking (kTop : BitVec 32) (memorySize : Int)
    (hfind : findFree (askingPm kTop).table 37 0 = some 9)
    (hbase : childBase memorySize ((askingPm kTop).table INIT) 9 =
      .ok 0xA00000) :
    ∃ s', doFork quiet memorySize (askingPm kTop) INIT = .ok (s', some 9) := by
  rw [doFork, hfind]
  dsimp only
  rw [hbase]
  exact ⟨_, rfl⟩

/-- With 32 MB the child of INIT is isolated. -/
theorem fork_isolates_iff_init :
    ∃ s', Isolates quiet 0x2000000 (askingPm 0xFFFFF) INIT s' 9 := by
  obtain ⟨s', hfork⟩ := doFork_asking 0xFFFFF 0x2000000
    (by decide +kernel) (by decide +kernel)
  refine ⟨s', (fork_isolates_iff (askingPm_reach _) rfl quiet_kernelOnly
    hfork).mpr ⟨by decide, ?_⟩⟩
  decide +kernel

/-- With 10.5 MB, and a kernel image that ends at 384 KB, the fork returns 0
    and the child's segment ends half a megabyte behind the memory. -/
theorem fork_beyond_memory :
    ∃ s', Reach Boot Step free (askingPm 0x5FFFF) ∧
      (askingPm 0x5FFFF).inbox INIT = some .fork ∧
      doFork quiet 0xA80000 (askingPm 0x5FFFF) INIT = .ok (s', some 9) ∧
      ¬ Isolates quiet 0xA80000 (askingPm 0x5FFFF) INIT s' 9 := by
  obtain ⟨s', hfork⟩ := doFork_asking 0x5FFFF 0xA80000
    (by decide +kernel) (by decide +kernel)
  refine ⟨s', askingPm_reach _, rfl, hfork, fun hiso => ?_⟩
  have hslot := (slots_after quiet_kernelOnly
    (forking_of_request (askingPm_reach _) rfl hfork) hfork).1
  obtain ⟨hbase, hbytes⟩ := inLdt_slot (Or.inl rfl) hslot
  have hle := (hiso.below _ (Or.inl rfl)).2
  rw [hbase, hbytes] at hle
  exact absurd hle (by decide)

end KosForkMemory
