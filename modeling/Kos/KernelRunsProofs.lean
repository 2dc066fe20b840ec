import Kos.KernelLevelsProofs

/-! # Runs of the kernel

    Every run of the machine is one that its book allows (`kernel_simulates`).
    So whatever lines interrupt whatever code and whichever processes are
    picked in between:

    * an entry finds the registers of what it interrupts in the frame of the
      process or on the stack of the kernel (`inv_enters`, `inv_nested`);
    * a handler in C, and each instruction of `kernel.asm`, stays in its own part
      of the stack (`inv_computes`, `inv_runs`);
    * the way out takes the registers back (`inv_resumes`, `inv_returns`). -/

namespace KosKernelRuns

open DescendingStack KosKernel KosKernelEntry TraceRefinement KosContextSwitch
  KosKernelLevels

variable {k : Layout} {m m' m₀ : Machine} {s : Book} {p p' : Pid} {x : Nat}

/-! ## Frames and the stack are apart -/

/-- Two entries of `proc_table` do not overlap. -/
theorem base_apart (hne : p ≠ p') :
    k.base p + P_LDT_SEL + 4 ≤ k.base p' ∨ k.base p' + P_LDT_SEL + 4 ≤ k.base p := by
  have hsize := k.size_le
  have hval : p.val ≠ p'.val := fun h => hne (Fin.ext h)
  rw [Layout.base, Layout.base]
  rcases Nat.lt_or_gt_of_ne hval with hlt | hlt
  · left
    have := Nat.mul_le_mul_left k.procSize (Nat.succ_le_of_lt hlt)
    rw [Nat.mul_succ] at this
    omega
  · right
    have := Nat.mul_le_mul_left k.procSize (Nat.succ_le_of_lt hlt)
    rw [Nat.mul_succ] at this
    omega

/-- The frames are not in the stack of the kernel. -/
theorem frame_apart (hx : InFrame k x) : ¬ InStack k x := by
  rintro ⟨hlow, htop⟩
  obtain ⟨p, h₁, h₂⟩ := hx
  have hsize := k.size_le
  have hlast := Nat.mul_le_mul_left k.procSize (Nat.succ_le_of_lt p.isLt)
  rw [Nat.mul_succ] at hlast
  rw [Layout.base] at h₁ h₂
  rw [Layout.stackTop] at htop
  have hapart := k.apart
  omega

/-- An entry is known by its address. -/
theorem base_inj (h : k.base p = k.base p') : p = p' := by
  by_contra hne
  have := base_apart (k := k) hne
  omega

/-! ## The invariant -/

/-- What the book says of the machine. -/
structure Inv (k : Layout) (s : Book) (m : Machine) : Prop where
  frames : ∀ p, readFrame m.mem (k.base p) = s.regs (k.base p)
  ldts : ∀ p, m.mem (k.base p + P_LDT_SEL) % 65536 = s.ldts (k.base p)
  ready : m.procReady = s.current
  current : ∃ p, s.current = k.base p
  depth : m.nestedInt + 1 = BitVec.ofNat 32 s.levels.length
  chain : Chain k s.current m.mem (contextOf m) s.levels m.calls
  process : s.levels = [] → m.sp0 = s.current + P_STACKTOP
  outer : s.levels ≠ [] → Outer (s.regs s.current).cs
  callers : ∀ ℓ ∈ s.levels, ∃ p, ℓ.caller = k.base p

/-- While a process runs, no handler is under way. -/
theorem levels_outer (hi : Inv k s m) (ho : Outer m.cpu.cs) :
    s.levels = [] ∧ m.calls = [] := by
  have hchain := hi.chain
  generalize hls : s.levels = ls at hchain ⊢
  generalize m.calls = fs at hchain ⊢
  cases hchain with
  | process => exact ⟨rfl, rfl⟩
  | level hcs =>
      rw [show m.cpu.cs = SELECTOR_KERNEL_CS from hcs] at ho
      exact absurd rfl ho

/-- In ring 0 a handler is under way. -/
theorem levels_inner (hi : Inv k s m) (ho : ¬ Outer m.cpu.cs) : s.levels ≠ [] := by
  intro hnil
  have hchain := hi.chain
  rw [hnil] at hchain
  generalize m.calls = fs at hchain
  cases hchain with
  | process hout => exact ho hout

theorem inframe_cell {y : Nat} (hy : y < P_LDT_SEL + 4) : InFrame k (k.base p + y) :=
  ⟨p, Nat.le_add_right _ _, by omega⟩

/-- A frame and its selector stay when their cells do. -/
theorem entry_congr {mem mem' : Nat → Nat}
    (h : ∀ x, k.base p ≤ x → x < k.base p + P_LDT_SEL + 4 → mem' x = mem x) :
    readFrame mem' (k.base p) = readFrame mem (k.base p) ∧
      mem' (k.base p + P_LDT_SEL) = mem (k.base p + P_LDT_SEL) := by
  refine ⟨readFrame_congr fun x h₁ h₂ => h x h₁ ?_,
    h _ (Nat.le_add_right _ _) (by omega)⟩
  exact h₂.trans_le (Nat.le_add_right _ _)

/-- All of them do when the cells of all entries do. -/
theorem frames_congr {mem mem' : Nat → Nat} (h : ∀ x, InFrame k x → mem' x = mem x) :
    readFrame mem' (k.base p) = readFrame mem (k.base p) ∧
      mem' (k.base p + P_LDT_SEL) = mem (k.base p + P_LDT_SEL) :=
  entry_congr fun x h₁ h₂ => h x ⟨p, h₁, h₂⟩

/-- The registers in one frame are new, and the entries of the other processes
    stay. -/
theorem frames_update {mem : Nat → Nat} {r : Regs} (hi : Inv k s m)
    (hp : readFrame mem (k.base p) = r)
    (hother : ∀ p' x, p' ≠ p → k.base p' ≤ x → x < k.base p' + P_LDT_SEL + 4 →
      mem x = m.mem x) :
    readFrame mem (k.base p') = Function.update s.regs (k.base p) r (k.base p') := by
  by_cases hpp : p' = p
  · rw [hpp, Function.update_self, hp]
  · rw [Function.update_of_ne (fun h => hpp (base_inj h)), ← hi.frames]
    exact (entry_congr fun x => hother p' x hpp).1

/-- A step of the handlers that leaves the entries of the processes and
    `p_proc_ready`. -/
theorem inv_of_chain {s' : Book} (hi : Inv k s m) (hne : s.levels ≠ [])
    (hregs : s'.regs = s.regs) (hldts : s'.ldts = s.ldts) (hcur : s'.current = s.current)
    (hlev : s'.levels.length = s.levels.length)
    (hcallers : ∀ ℓ ∈ s'.levels, ∃ p, ℓ.caller = k.base p)
    (hframe : ∀ x, InFrame k x → m'.mem x = m.mem x)
    (hready : m'.procReady = m.procReady) (hnest : m'.nestedInt = m.nestedInt)
    (hchain : Chain k s.current m'.mem (contextOf m') s'.levels m'.calls) :
    Inv k s' m' where
  frames p := by rw [hregs, (frames_congr hframe).1, hi.frames]
  ldts p := by rw [hldts, (frames_congr hframe).2, hi.ldts]
  ready := by rw [hready, hcur, hi.ready]
  current := by rw [hcur]; exact hi.current
  depth := by rw [hnest, hlev, hi.depth]
  chain := by rw [hcur]; exact hchain
  process h := by
    rw [h] at hlev
    exact absurd (List.length_eq_zero_iff.mp hlev.symm) hne
  outer _ := by rw [hregs, hcur]; exact hi.outer hne
  callers := hcallers

/-! ## Processes -/

/-- A process that computes. -/
theorem inv_works {r : Regs} {mem : Nat → Nat} {pm ps : BitVec 8} (hi : Inv k s m)
    (ho : Outer m.cpu.cs) (hr : Outer r.cs)
    (hmem : ∀ x, InFrame k x ∨ InStack k x → mem x = m.mem x) :
    Allowed k s .works ∧
      Inv k s { m with cpu := r, mem := mem, maskM := pm, maskS := ps } := by
  obtain ⟨hlev, hcalls⟩ := levels_outer hi ho
  have hframe : ∀ x, InFrame k x → mem x = m.mem x := fun x hx => hmem x (.inl hx)
  refine ⟨hlev, ?_⟩
  exact {
    frames := fun p => (frames_congr hframe).1.trans (hi.frames p)
    ldts := by
      intro p
      show mem (k.base p + P_LDT_SEL) % 65536 = s.ldts (k.base p)
      rw [(frames_congr hframe).2, hi.ldts]
    ready := hi.ready
    current := hi.current
    depth := hi.depth
    chain := by
      rw [hlev, hcalls]
      exact .process hr
    process := hi.process
    outer := fun h => absurd hlev h
    callers := hi.callers }

/-- A task that writes to an entry of `proc_table`. -/
theorem inv_pokes {r : Regs} {mem : Nat → Nat} (hi : Inv k s m)
    (ho : Outer m.cpu.cs) (hr : Outer r.cs)
    (hmem : ∀ x, InFrame k x ∨ InStack k x →
      x < k.base p ∨ k.base p + P_LDT_SEL + 4 ≤ x → mem x = m.mem x) :
    let e := .pokes (k.base p) (readFrame mem (k.base p))
      (mem (k.base p + P_LDT_SEL) % 65536)
    Allowed k s e ∧ Inv k (s.note e) { m with cpu := r, mem := mem } := by
  intro e
  obtain ⟨hlev, hcalls⟩ := levels_outer hi ho
  have hother : ∀ p' x, p' ≠ p → k.base p' ≤ x → x < k.base p' + P_LDT_SEL + 4 →
      mem x = m.mem x := by
    intro p' x hne h₁ h₂
    have hap := base_apart (k := k) hne
    exact hmem x (.inl ⟨p', h₁, h₂⟩) (by omega)
  refine ⟨hlev, ?_⟩
  exact {
    frames := fun _ => frames_update hi rfl hother
    ldts := by
      intro p'
      show mem (k.base p' + P_LDT_SEL) % 65536 =
        Function.update s.ldts (k.base p) (mem (k.base p + P_LDT_SEL) % 65536) (k.base p')
      by_cases hp : p' = p
      · rw [hp, Function.update_self]
      · rw [Function.update_of_ne (fun h => hp (base_inj h)), ← hi.ldts,
          (entry_congr fun x => hother p' x hp).2]
    ready := hi.ready
    current := hi.current
    depth := hi.depth
    chain := by
      show Chain k s.current mem ⟨r, m.ldtr, m.maskM, m.maskS⟩ s.levels m.calls
      rw [hlev, hcalls]
      exact .process hr
    process := hi.process
    outer := fun h => absurd hlev h
    callers := hi.callers }

/-! ## Entries -/

theorem top_cell (k : Layout) : InStack k (k.stackTop - 4) := by
  rw [InStack, Layout.stackTop, STACK_SPACE]
  omega

/-- The cell of the first way out is in no frame. -/
theorem top_apart (hx : InFrame k x) : x ≠ k.stackTop - 4 :=
  fun h => frame_apart hx (h ▸ top_cell k)

/-- What `save` has done behind the gate, from a process. -/
theorem process_entered {w : Nat} (hi : Inv k s m) (ho : Outer m.cpu.cs)
    (hp : s.current = k.base p) :
    let m₁ := callSave k w m.gate
    Entered w (k.base p) (k.stackTop - 4) (k.code .switchToUserMode) m m₁ ∧
      readFrame m₁.mem (k.base p) = m.cpu ∧
      ∀ x, x < k.base p ∨ k.base p + P_STACKTOP ≤ x → x ≠ k.stackTop - 4 →
        m₁.mem x = m.mem x := by
  obtain ⟨hlev, -⟩ := levels_outer hi ho
  refine enter_outer ho (by rw [hi.process hlev, hp]) ?_ ?_
  · rw [hi.depth, hlev]
    rfl
  · by_contra h
    refine top_apart (k := k) ⟨p, by omega, ?_⟩ rfl
    rw [P_LDT_SEL]
    omega

/-- No way to a handler takes more than 24 bytes. -/
theorem room_le (ent : Entry) : ent.room ≤ 24 := by
  cases ent <;> exact Nat.le_of_ble_eq_true rfl

/-- **AN ENTRY FROM A PROCESS**, once the handler stands on its level. -/
theorem inv_enters {w : Nat} {ent : Entry} {m₁ : Machine} (hi : Inv k s m)
    (ho : Outer m.cpu.cs) (hp : s.current = k.base p) (hm₁ : m₁ = callSave k w m.gate)
    (hm' : m' = { m₁ with cpu := m'.cpu, maskM := m'.maskM, maskS := m'.maskS })
    (hcs : m'.cpu.cs = m₁.cpu.cs) (hss : m'.cpu.ss = m₁.cpu.ss)
    (hbody : Body k s.current m₁.mem m'.cpu (k.stackTop - 4) m.procReady
      (.enter ent m.procReady (contextOf m)) [])
    (hmask : Masks (.enter ent m.procReady (contextOf m)) (contextOf m')) :
    Inv k (s.note (.preempts m.procReady ent (contextOf m))) m' := by
  obtain ⟨hlev, hcalls⟩ := levels_outer hi ho
  obtain ⟨hent, hframe, hkeep⟩ := process_entered (w := w) hi ho hp
  rw [← hm₁] at hent hframe hkeep
  have hmem : m'.mem = m₁.mem := by rw [hm']
  have hready : m.procReady = k.base p := by rw [hi.ready, hp]
  have hother : ∀ p' x, p' ≠ p → k.base p' ≤ x → x < k.base p' + P_LDT_SEL + 4 →
      m'.mem x = m.mem x := by
    intro p' x hne h₁ h₂
    rw [hmem]
    have hap := base_apart (k := k) hne
    refine hkeep x ?_ (top_apart ⟨p', h₁, h₂⟩)
    rw [P_LDT_SEL] at hap h₂
    omega
  exact {
    frames := by
      intro p'
      show _ = Function.update s.regs m.procReady m.cpu (k.base p')
      rw [hready]
      exact frames_update hi (by rw [hmem, hframe]) hother
    ldts := by
      intro p'
      show m'.mem (k.base p' + P_LDT_SEL) % 65536 = s.ldts (k.base p')
      rw [← hi.ldts p']
      congr 1
      by_cases hpp : p' = p
      · rw [hpp, hmem]
        exact hkeep _ (.inr (Nat.le_refl _)) (top_apart (inframe_cell (by decide)))
      · exact (entry_congr fun x => hother p' x hpp).2
    ready := by
      rw [hm']
      exact hent.ready.trans hi.ready
    current := hi.current
    depth := by
      have hnest : m'.nestedInt = m.nestedInt + 1 := by
        rw [hm']
        exact hent.nested
      rw [hnest, hi.depth]
      show BitVec.ofNat 32 s.levels.length + 1 = BitVec.ofNat 32 (s.levels.length + 1)
      rw [hlev]
      rfl
    chain := by
      have hcalls' : m'.calls = [] := by
        rw [hm']
        exact hent.calls.trans hcalls
      have htop : k.stackSpace + ent.room ≤ k.stackTop - 4 ∧ 4 ≤ k.stackTop := by
        have hroom := room_le ent
        rw [Layout.stackTop, STACK_SPACE]
        omega
      have hout : WayOut k m'.mem (k.stackTop - 4)
          (.enter ent m.procReady (contextOf m)) [] :=
        ⟨Nat.sub_add_cancel htop.2, by rw [hmem]; exact hent.out⟩
      have hchain := Chain.level (hcs.trans hent.cs) (hss.trans hent.ss) htop.1
        (hmem ▸ hbody) hout hmask (.process ho)
      show Chain k s.current m'.mem (contextOf m')
        (.enter ent m.procReady (contextOf m) :: s.levels) m'.calls
      rw [hlev, hcalls']
      exact hchain
    process := fun h => absurd h (List.cons_ne_nil _ _)
    outer := by
      intro _
      show Outer (Function.update s.regs m.procReady m.cpu s.current).cs
      rw [hi.ready, Function.update_self]
      exact ho
    callers := by
      intro ℓ hℓ
      have hlevels : (s.note (.preempts m.procReady ent (contextOf m))).levels =
          [.enter ent m.procReady (contextOf m)] := by
        show _ :: s.levels = _
        rw [hlev]
      rw [hlevels, List.mem_singleton] at hℓ
      rw [hℓ]
      exact ⟨p, hready⟩ }

theorem setLine_congr {irq : Fin 16} {c c' : Context} (hM : c.maskM = c'.maskM)
    (hS : c.maskS = c'.maskS) : (setLine irq c).maskM = (setLine irq c').maskM ∧
      (setLine irq c).maskS = (setLine irq c').maskS := by
  rw [setLine, setLine]
  split
  · exact ⟨by rw [hM], hS⟩
  · exact ⟨hM, by rw [hS]⟩

/-- What a line's entry does after `save`. -/
theorem lineEntry_after {irq : Fin 16} {m₁ : Machine} {w : Nat}
    (hm' : m' = (maskLine irq m₁).sti.goto w) :
    m' = { m₁ with cpu := m'.cpu, maskM := m'.maskM, maskS := m'.maskS } ∧
      m'.cpu.cs = m₁.cpu.cs ∧ m'.cpu.ss = m₁.cpu.ss ∧ m'.cpu.esp = m₁.cpu.esp ∧
      m'.cpu.eip = w ∧ m'.maskM = (setLine irq (contextOf m₁)).maskM ∧
      m'.maskS = (setLine irq (contextOf m₁)).maskS := by
  have hmask := @maskLine_masks irq m₁
  rw [hm']
  refine ⟨?_, ?_, ?_, ?_, rfl, hmask.1, hmask.2⟩
  all_goals
    rw [maskLine]
    split <;> rfl

/-- What the entry of `sys_call` does after `save`. -/
theorem callEntry_after {m₁ : Machine} {w : Nat} (hm' : m' = m₁.sti.goto w) :
    m' = { m₁ with cpu := m'.cpu, maskM := m'.maskM, maskS := m'.maskS } ∧
      m'.cpu.cs = m₁.cpu.cs ∧ m'.cpu.ss = m₁.cpu.ss := by
  rw [hm']
  exact ⟨rfl, rfl, rfl⟩

/-- An entry of a line that goes through. -/
theorem hwintEntry_some {irq : Fin 16} (he : hwintEntry k irq m = some m') :
    m' = (maskLine irq (callSave k (k.code (.hwint irq .saved)) m.gate)).sti.goto
      (k.code (.hwint irq .push)) := by
  rw [hwintEntry] at he
  split at he
  · exact (Option.some.inj he).symm
  · cases he

/-- The same for `int 0x80`. -/
theorem sysCallEntry_some (he : sysCallEntry k m = some m') :
    m' = (callSave k (k.code (.sysCall .saved)) m.gate).sti.goto
      (k.code (.sysCall .pushEsi)) := by
  rw [sysCallEntry] at he
  split at he
  · exact (Option.some.inj he).symm
  · cases he

/-- The entry of a line has masked it, and nothing else. -/
theorem masks_irq {irq : Fin 16} {q : Nat} {w b e v : Nat} {m₁ : Machine}
    (hline : ¬ m.masked irq) (hent : Entered w b e v m m₁)
    (hM : m'.maskM = (setLine irq (contextOf m₁)).maskM)
    (hS : m'.maskS = (setLine irq (contextOf m₁)).maskS) (hldtr : m'.ldtr = m₁.ldtr) :
    Masks (.enter (.irq irq) q (contextOf m)) (contextOf m') := by
  have hset := @setLine_congr irq (contextOf m₁) (contextOf m) hent.maskM hent.maskS
  exact ⟨hldtr.trans hent.ldtr, fun h => hline (masked_iff.mpr h), hM.trans hset.1,
    hS.trans hset.2⟩

/-- A line interrupts a process. -/
theorem inv_preempts {irq : Fin 16} (hi : Inv k s m) (ho : Outer m.cpu.cs)
    (hline : ¬ m.masked irq) (he : hwintEntry k irq m = some m') :
    Allowed k s (.preempts m.procReady (.irq irq) (contextOf m)) ∧
      Inv k (s.note (.preempts m.procReady (.irq irq) (contextOf m))) m' := by
  obtain ⟨p, hp⟩ := hi.current
  obtain ⟨hent, -, -⟩ := process_entered (w := k.code (.hwint irq .saved)) hi ho hp
  obtain ⟨m₁, hm₁⟩ : ∃ m₁, m₁ = callSave k (k.code (.hwint irq .saved)) m.gate :=
    ⟨_, rfl⟩
  have he := hwintEntry_some he
  rw [← hm₁] at hent he
  obtain ⟨hm', hcs, hss, hesp, heip, hM, hS⟩ := lineEntry_after he
  refine ⟨⟨(levels_outer hi ho).1, hi.ready⟩, ?_⟩
  refine inv_enters hi ho hp hm₁ hm' hcs hss (.irqPush rfl heip (hesp.trans hent.esp)) ?_
  exact masks_irq hline hent hM hS (by rw [hm'])

/-- `sys_call` behind `save`. -/
theorem call_starts {w b e v q : Nat} {m₁ : Machine} (hent : Entered w b e v m m₁)
    (hcur : s.current = q) {b' : Nat} (hb : b' = b) (hn : m.cpu.eax < NR_SYS_CALL) :
    Body k s.current m₁.mem (m₁.sti.goto (k.code (.sysCall .pushEsi))).cpu e b'
      (.enter .call q (contextOf m)) [] := by
  have hnone : pushed (contextOf m).regs b' q .pushEsi = some [] := rfl
  exact .prepares rfl hnone hcur rfl hent.esp trivial (hent.esi.trans hb.symm) hn hent.eax
    hent.ebx hent.ecx hent.edx

/-- A process makes a system call. -/
theorem inv_traps (hi : Inv k s m) (ho : Outer m.cpu.cs) (hn : m.cpu.eax < NR_SYS_CALL)
    (he : sysCallEntry k m = some m') :
    Allowed k s (.preempts m.procReady .call (contextOf m)) ∧
      Inv k (s.note (.preempts m.procReady .call (contextOf m))) m' := by
  obtain ⟨p, hp⟩ := hi.current
  obtain ⟨hent, -, -⟩ := process_entered (w := k.code (.sysCall .saved)) hi ho hp
  obtain ⟨m₁, hm₁⟩ : ∃ m₁, m₁ = callSave k (k.code (.sysCall .saved)) m.gate :=
    ⟨_, rfl⟩
  have hm' := sysCallEntry_some he
  rw [← hm₁] at hent hm'
  obtain ⟨hsame, hcs, hss⟩ := callEntry_after hm'
  have hbody : Body k s.current m₁.mem m'.cpu (k.stackTop - 4) m.procReady
      (.enter .call m.procReady (contextOf m)) [] := by
    rw [hm']
    exact call_starts hent hi.ready.symm (by rw [hi.ready, hp]) hn
  refine ⟨⟨(levels_outer hi ho).1, hi.ready⟩, ?_⟩
  refine inv_enters hi ho hp hm₁ hsame hcs hss hbody ?_
  rw [hm']
  exact ⟨hent.ldtr, hent.maskM, hent.maskS⟩

/-- A handler runs in ring 0, on the stack of the kernel. -/
theorem kernel_stack (hi : Inv k s m) (ho : ¬ Outer m.cpu.cs) :
    m.cpu.ss = SELECTOR_KERNEL_DS ∧ m.cpu.esp + 4 ≤ k.stackTop := by
  have hne := levels_inner hi ho
  have hchain := hi.chain
  generalize s.levels = ls at hchain hne
  generalize m.calls = fs at hchain
  cases hchain with
  | process => exact absurd rfl hne
  | level _ hss _ hbody hout _ hrest =>
      have hle : m.cpu.esp ≤ _ := body_esp hbody
      have htop := chain_room hout hrest
      exact ⟨hss, by omega⟩

/-- `nested_int` does not wrap around. -/
theorem nested_ne (hi : Inv k s m) (hne : s.levels ≠ []) : m.nestedInt + 1 ≠ 0 := by
  intro hzero
  have hlength := chain_length hi.chain
  rw [hi.depth] at hzero
  have hnat := congrArg BitVec.toNat hzero
  rw [BitVec.toNat_ofNat, Nat.mod_eq_of_lt (by omega)] at hnat
  exact hne (List.length_eq_zero_iff.mp hnat)

/-- What `save` has done behind the gate, from the kernel. -/
theorem kernel_entered {w : Nat} (hi : Inv k s m) (ho : ¬ Outer m.cpu.cs)
    (hroom : 68 ≤ m.cpu.esp) :
    let m₁ := callSave k w m.gate
    let b := m.cpu.esp - 64
    Entered w b (b - 4) (k.code .switchToUserModeReenter) m m₁ ∧
      { readFrame m₁.mem b with esp := b + 64, ss := SELECTOR_KERNEL_DS } = m.cpu ∧
      ∀ x, x < b - 4 ∨ m.cpu.esp ≤ x → m₁.mem x = m.mem x :=
  enter_inner ho (kernel_stack hi ho).1 (by omega) (nested_ne hi (levels_inner hi ho))
    (by omega)

/-- **AN ENTRY FROM THE KERNEL** stands on the chain. -/
theorem inv_nested {w : Nat} {ent : Entry} {m₁ : Machine} (hi : Inv k s m)
    (ho : ¬ Outer m.cpu.cs) (hin : ent = .call → Compiled k m.cpu.eip)
    (hroom : k.stackSpace + 68 + ent.room ≤ m.cpu.esp) (hm₁ : m₁ = callSave k w m.gate)
    (hm' : m' = { m₁ with cpu := m'.cpu, maskM := m'.maskM, maskS := m'.maskS })
    (hcs : m'.cpu.cs = m₁.cpu.cs) (hss : m'.cpu.ss = m₁.cpu.ss)
    (hbody : Body k s.current m₁.mem m'.cpu (m.cpu.esp - 64 - 4) (m.cpu.esp - 64)
      (.enter ent s.current (contextOf m)) [])
    (hmask : Masks (.enter ent s.current (contextOf m)) (contextOf m')) :
    Inv k (s.note (.nests ent (contextOf m))) m' := by
  have hne := levels_inner hi ho
  have htop := (kernel_stack hi ho).2
  obtain ⟨hent, hframe, hkeep⟩ := kernel_entered (w := w) hi ho (by omega)
  rw [← hm₁] at hent hframe hkeep
  have hmem : m'.mem = m₁.mem := by rw [hm']
  have hcells : ∀ x, InFrame k x → m'.mem x = m.mem x := by
    intro x hx
    have hout := frame_apart hx
    rw [InStack] at hout
    rw [hmem]
    exact hkeep x (by omega)
  exact {
    frames := fun p => (frames_congr hcells).1.trans (hi.frames p)
    ldts := fun p => by
      rw [(frames_congr hcells).2]
      exact hi.ldts p
    ready := by
      rw [hm']
      exact hent.ready.trans hi.ready
    current := hi.current
    depth := by
      have hnest : m'.nestedInt = m.nestedInt + 1 := by
        rw [hm']
        exact hent.nested
      rw [hnest, hi.depth]
      exact BitVec.ofNat_add _ _ |>.symm
    chain := by
      have hcalls : m'.calls = m.calls := by
        rw [hm']
        exact hent.calls
      have hb : m.cpu.esp - 64 - 4 + 4 = m.cpu.esp - 64 := by omega
      have hb' : m.cpu.esp - 64 - 4 + 68 = m.cpu.esp - 64 + 64 := by omega
      have hback : (Level.enter ent s.current (contextOf m)).back = contextOf m := by
        cases ent <;> rfl
      have hout : WayOut k m'.mem (m.cpu.esp - 64 - 4) (.enter ent s.current (contextOf m))
          s.levels := by
        rw [hmem]
        cases hls : s.levels with
        | nil => exact absurd hls hne
        | cons ℓ ls =>
            refine ⟨hent.out, ?_, hin⟩
            rw [hb, hb', hback]
            exact hframe
      have hat : frameAt (m.cpu.esp - 64 - 4) (.enter ent s.current (contextOf m)) s.levels =
          m.cpu.esp - 64 := by
        cases hls : s.levels with
        | nil => exact absurd hls hne
        | cons ℓ ls => exact hb
      have hrest : Chain k s.current m'.mem
          (Level.enter ent s.current (contextOf m)).back s.levels m.calls := by
        rw [hback]
        refine chain_congr (fun x h₁ h₂ => ?_) hi.chain
        rw [hmem]
        exact hkeep x (.inr h₁)
      have hlow : k.stackSpace + ent.room ≤ m.cpu.esp - 64 - 4 := by omega
      have hbody' : Body k s.current m'.mem m'.cpu (m.cpu.esp - 64 - 4)
          (frameAt (m.cpu.esp - 64 - 4) (.enter ent s.current (contextOf m)) s.levels)
          (.enter ent s.current (contextOf m)) [] := by
        rw [hat, hmem]
        exact hbody
      rw [hcalls]
      exact Chain.level (hcs.trans hent.cs) (hss.trans hent.ss) hlow hbody' hout hmask hrest
    process := fun h => absurd h (List.cons_ne_nil _ _)
    outer := fun _ => hi.outer hne
    callers := by
      intro ℓ hℓ
      rcases List.mem_cons.mp hℓ with rfl | hℓ
      · exact hi.current
      · exact hi.callers ℓ hℓ }

/-- A line interrupts the kernel. -/
theorem inv_nests {irq : Fin 16} (hi : Inv k s m) (ho : ¬ Outer m.cpu.cs)
    (hline : ¬ m.masked irq) (hroom : k.stackSpace + 68 + (Entry.irq irq).room ≤ m.cpu.esp)
    (he : hwintEntry k irq m = some m') :
    Allowed k s (.nests (.irq irq) (contextOf m)) ∧
      Inv k (s.note (.nests (.irq irq) (contextOf m))) m' := by
  obtain ⟨hent, -, -⟩ := kernel_entered (w := k.code (.hwint irq .saved)) hi ho (by omega)
  obtain ⟨m₁, hm₁⟩ : ∃ m₁, m₁ = callSave k (k.code (.hwint irq .saved)) m.gate :=
    ⟨_, rfl⟩
  have he := hwintEntry_some he
  rw [← hm₁] at hent he
  obtain ⟨hm', hcs, hss, hesp, heip, hM, hS⟩ := lineEntry_after he
  refine ⟨⟨levels_inner hi ho, .inr ?_⟩, ?_⟩
  · intro ℓ hℓ hentry
    refine hline (masked_iff.mpr (chain_masked hi.chain ?_))
    rw [← hentry]
    exact List.mem_map_of_mem hℓ
  · refine inv_nested hi ho (fun h => by cases h) hroom hm₁ hm' hcs hss
      (.irqPush rfl heip (hesp.trans hent.esp)) ?_
    exact masks_irq hline hent hM hS (by rw [hm'])

/-- The kernel makes a system call. -/
theorem inv_calls (hi : Inv k s m) (ho : ¬ Outer m.cpu.cs) (hin : Compiled k m.cpu.eip)
    (hn : m.cpu.eax < NR_SYS_CALL)
    (hroom : k.stackSpace + 68 + Entry.call.room ≤ m.cpu.esp)
    (he : sysCallEntry k m = some m') :
    Allowed k s (.nests .call (contextOf m)) ∧
      Inv k (s.note (.nests .call (contextOf m))) m' := by
  obtain ⟨hent, -, -⟩ := kernel_entered (w := k.code (.sysCall .saved)) hi ho (by omega)
  obtain ⟨m₁, hm₁⟩ : ∃ m₁, m₁ = callSave k (k.code (.sysCall .saved)) m.gate :=
    ⟨_, rfl⟩
  have hm' := sysCallEntry_some he
  rw [← hm₁] at hent hm'
  obtain ⟨hsame, hcs, hss⟩ := callEntry_after hm'
  refine ⟨⟨levels_inner hi ho, .inl rfl⟩, ?_⟩
  refine inv_nested hi ho (fun _ => hin) hroom hm₁ hsame hcs hss ?_ ?_
  · rw [hm']
    exact call_starts hent rfl rfl hn
  · rw [hm']
    exact ⟨hent.ldtr, hent.maskM, hent.maskS⟩

/-! ## Functions in C -/

section Compiled

variable {cur b : Nat} {mem : Nat → Nat} {r : Regs} {e : Nat} {ℓ : Level} {fs : List Call}

/-- Compiled code runs only in the function that a handler has called. -/
theorem body_compiled (hin : Compiled k r.eip) (h : Body k cur mem r e b ℓ fs) :
    ∃ f, fs = [f] ∧ r.esp ≤ f.slot ∧ k.stackSpace ≤ r.esp ∧
      f.slot + 4 + 4 * f.args ≤ e ∧
      ∀ cur' mem' r', Compiled k r'.eip → k.stackSpace ≤ r'.esp → r'.esp ≤ f.slot →
        (∀ x, f.slot ≤ x → x < e → ¬ Own f x → mem' x = mem x) →
        Body k cur' mem' r' e b ℓ [f] := by
  cases h with
  | irqPush _ hat => exact absurd hat (hin _)
  | irqCall _ hat => exact absurd hat (hin _)
  | irqPop _ hat => exact absurd hat (hin _)
  | irqCli _ hat => exact absurd hat (hin _)
  | prepares _ _ _ hat => exact absurd hat (hin _)
  | sysAdd _ hat => exact absurd hat (hin _)
  | sysPop _ hat => exact absurd hat (hin _)
  | sysStore _ hat => exact absurd hat (hin _)
  | sysCli _ hat => exact absurd hat (hin _)
  | @irqHandler irq t hℓ _ hlow hesp ht hret =>
      refine ⟨⟨t, 1⟩, rfl, hesp, hlow, Nat.le_of_eq ht, ?_⟩
      intro cur' mem' r' hin' hlow' hesp' hmem
      refine .irqHandler hℓ hin' hlow' hesp' ht
        ((hmem t (Nat.le_refl t) (by omega) ?_).trans hret)
      rintro (h | ⟨h, -⟩)
      · exact Nat.lt_irrefl t h
      · exact absurd h (by show ¬ t + 4 ≤ t; omega)
  | @sysHandler t hℓ _ hlow hesp ht hret hb =>
      refine ⟨⟨t, 4⟩, rfl, hesp, hlow, by show t + 4 + 4 * 4 ≤ e; omega, ?_⟩
      intro cur' mem' r' hin' hlow' hesp' hmem
      refine .sysHandler hℓ hin' hlow' hesp' ht
        ((hmem t (Nat.le_refl t) (by omega) ?_).trans hret)
        ((hmem (t + 20) (by show t ≤ t + 20; omega) (by omega) ?_).trans hb)
      · rintro (h | ⟨h, -⟩)
        · exact Nat.lt_irrefl t h
        · exact absurd h (by show ¬ t + 4 ≤ t; omega)
      · rintro (h | ⟨-, h⟩)
        · exact absurd h (by show ¬ t + 20 < t; omega)
        · exact absurd h (by show ¬ t + 20 < t + 4 + 4 * 4; omega)

/-- `ret` of that function. -/
theorem body_returns {f : Call} (h : Body k cur mem r e b ℓ [f]) (hesp : r.esp = f.slot) :
    Body k cur mem { r with esp := r.esp + 4, eip := mem r.esp } e b
      { ℓ with result := some r.eax } [] := by
  cases h with
  | @irqHandler irq t hℓ _ _ _ ht hret =>
      have hslot : r.esp = t := hesp
      refine .irqPop hℓ (by rw [hslot]; exact hret) ?_
      show r.esp + 4 + 4 = e
      omega
  | @sysHandler t hℓ _ _ _ ht hret hb =>
      have hslot : r.esp = t := hesp
      refine .sysAdd hℓ (by rw [hslot]; exact hret) ?_ ?_ rfl
      · show r.esp + 4 + 20 = e
        omega
      · rw [hslot]
        exact hb

end Compiled

/-- **CODE IN C** computes in its part of the stack. -/
theorem inv_computes {f : Call} {fs : List Call} {r : Regs} {mem : Nat → Nat}
    (hi : Inv k s m) (ho : ¬ Outer m.cpu.cs) (hin : Compiled k m.cpu.eip)
    (hf : m.calls = f :: fs) (hr : Compiled k r.eip) (hcs : r.cs = m.cpu.cs)
    (hss : r.ss = m.cpu.ss) (hlow : k.stackSpace ≤ r.esp) (hesp : r.esp ≤ f.slot)
    (hmem : ∀ x, InFrame k x ∨ InStack k x ∧ ¬ Own f x → mem x = m.mem x) :
    Allowed k s .computes ∧ Inv k s { m with cpu := r, mem := mem } := by
  have hne := levels_inner hi ho
  refine ⟨hne, inv_of_chain hi hne rfl rfl rfl rfl hi.callers (fun x hx => hmem x (.inl hx))
    rfl rfl ?_⟩
  have hchain := hi.chain
  show Chain k s.current mem ⟨r, m.ldtr, m.maskM, m.maskS⟩ s.levels m.calls
  rw [hf] at hchain ⊢
  generalize s.levels = ls at hchain hne
  generalize hcalls : f :: fs = calls at hchain
  cases hchain with
  | process => exact absurd rfl hne
  | @level _ ℓ ls e fs₁ gs hcs₀ hss₀ hlow₀ hbody hout hmask hrest =>
      obtain ⟨g, rfl, hg, hgl, hge, hbody'⟩ := body_compiled hin hbody
      obtain ⟨rfl, -⟩ := List.cons.inj hcalls
      have htop := chain_room hout hrest
      refine chain_moves hlow₀ hout hrest ?_ (fun _ => rfl) (hcs.trans hcs₀)
        (hss.trans hss₀) ?_ hmask
      · intro x h₁ h₂
        refine hmem x (.inr ⟨⟨by omega, h₂⟩, ?_⟩)
        rintro (h | ⟨-, h⟩) <;> omega
      · refine hbody' _ _ _ hr hlow hesp fun x h₁ h₂ hown => hmem x (.inr ⟨⟨?_, by omega⟩, hown⟩)
        have hlo : k.stackSpace ≤ m.cpu.esp := hgl
        have hslot : m.cpu.esp ≤ f.slot := hg
        omega

/-- Where `nested_int` is 0 there is one handler. -/
theorem first_level (hi : Inv k s m) (hn : m.nestedInt = 0) : s.levels.length = 1 := by
  have hdepth := hi.depth
  have hlength := chain_length hi.chain
  rw [hn] at hdepth
  have hnat := congrArg BitVec.toNat hdepth
  rw [BitVec.toNat_ofNat, Nat.mod_eq_of_lt (by omega)] at hnat
  exact hnat.symm

/-- `schedule` picks a process. -/
theorem inv_picks (hi : Inv k s m) (hin : Compiled k m.cpu.eip) (hn : m.nestedInt = 0)
    (hp : Outer (readFrame m.mem (k.base p)).cs) :
    Allowed k s (.picks (k.base p)) ∧
      Inv k (s.note (.picks (k.base p))) { m with procReady := k.base p } := by
  have hone := first_level hi hn
  refine ⟨hone, ?_⟩
  exact {
    frames := hi.frames
    ldts := hi.ldts
    ready := rfl
    current := ⟨p, rfl⟩
    depth := hi.depth
    chain := by
      have hchain := hi.chain
      show Chain k (k.base p) m.mem (contextOf m) s.levels m.calls
      generalize s.levels = ls at hchain hone
      generalize m.calls = calls at hchain
      cases hchain with
      | process => cases hone
      | level hcs hss hlow hbody hout hmask hrest =>
          obtain ⟨g, rfl, hg, hgl, -, hbody'⟩ := body_compiled hin hbody
          have hls := List.length_eq_zero_iff.mp (Nat.succ.inj hone)
          refine chain_moves hlow hout hrest (fun _ _ _ => rfl)
            (fun h => absurd hls h) hcs hss ?_ hmask
          exact hbody' _ _ _ hin hgl hg (fun _ _ _ _ => rfl)
    process := by
      intro h
      have hnil : s.levels = [] := h
      rw [hnil] at hone
      cases hone
    outer := fun _ => by
      rw [hi.frames] at hp
      exact hp
    callers := hi.callers }

/-- A change of the innermost level leaves the callers. -/
theorem callers_modify {ls : List Level} {f : Level → Level} {ℓ : Level}
    (h : ∀ ℓ ∈ ls, ∃ p, ℓ.caller = k.base p) (hf : ∀ ℓ, (f ℓ).caller = ℓ.caller)
    (hℓ : ℓ ∈ ls.modifyHead f) : ∃ p, ℓ.caller = k.base p := by
  cases ls with
  | nil => cases hℓ
  | cons ℓ' ls =>
      rcases List.mem_cons.mp hℓ with rfl | hℓ
      · rw [hf]
        exact h ℓ' (List.mem_cons_self ..)
      · exact h ℓ (List.mem_cons_of_mem _ hℓ)

/-- A function in C returns. -/
theorem inv_finishes {f : Call} {fs : List Call} (hi : Inv k s m)
    (ho : ¬ Outer m.cpu.cs) (hin : Compiled k m.cpu.eip) (hf : m.calls = f :: fs)
    (hesp : m.cpu.esp = f.slot) :
    Allowed k s (.finishes m.cpu.eax) ∧
      Inv k (s.note (.finishes m.cpu.eax)) { m.ret with calls := fs } := by
  have hne := levels_inner hi ho
  refine ⟨hne, inv_of_chain hi hne rfl rfl rfl List.length_modifyHead ?_ (fun _ _ => rfl)
    rfl rfl ?_⟩
  · intro ℓ hℓ
    exact callers_modify (f := fun ℓ => { ℓ with result := some m.cpu.eax }) hi.callers
      (fun _ => rfl) hℓ
  have hchain := hi.chain
  show Chain k s.current m.mem (contextOf m.ret)
    (s.levels.modifyHead fun ℓ => { ℓ with result := some m.cpu.eax }) fs
  rw [hf] at hchain
  generalize s.levels = ls at hchain hne
  generalize hcalls : f :: fs = calls at hchain
  cases hchain with
  | process => exact absurd rfl hne
  | @level _ ℓ ls e fs₁ gs hcs hss hlow hbody hout hmask hrest =>
      obtain ⟨g, rfl, -⟩ := body_compiled hin hbody
      obtain ⟨rfl, rfl⟩ := List.cons.inj hcalls
      have hcs' : (contextOf m.ret).regs.cs = SELECTOR_KERNEL_CS := hcs
      exact chain_finishes hlow hout hrest (fun _ _ _ => rfl) (fun _ => rfl) hcs' hss
        (body_returns hbody hesp) hmask

/-! ## Instructions of `kernel.asm` -/

/-- The innermost handler of a state. -/
structure Top (k : Layout) (s : Book) (m : Machine) (ℓ : Level) (ls : List Level)
    (e : Nat) (fs gs : List Call) : Prop where
  levels : s.levels = ℓ :: ls
  calls : m.calls = fs ++ gs
  cs : m.cpu.cs = SELECTOR_KERNEL_CS
  ss : m.cpu.ss = SELECTOR_KERNEL_DS
  low : k.stackSpace + ℓ.entry.room ≤ e
  body : Body k s.current m.mem m.cpu e (frameAt e ℓ ls) ℓ fs
  out : WayOut k m.mem e ℓ ls
  mask : Masks ℓ (contextOf m)
  rest : Chain k s.current m.mem ℓ.back ls gs

/-- In ring 0 there is an innermost handler. -/
theorem top_of_inv (hi : Inv k s m) (ho : ¬ Outer m.cpu.cs) :
    ∃ ℓ ls e fs gs, Top k s m ℓ ls e fs gs := by
  have hne := levels_inner hi ho
  have hchain := hi.chain
  generalize hls : s.levels = ls at hchain hne
  generalize hcalls : m.calls = calls at hchain
  cases hchain with
  | process => exact absurd rfl hne
  | level hcs hss hlow hbody hout hmask hrest =>
      exact ⟨_, _, _, _, _, hls, hcalls, hcs, hss, hlow, hbody, hout, hmask, hrest⟩

section Top

variable {ℓ : Level} {ls : List Level} {e : Nat} {fs gs : List Call}

theorem Top.ne (ht : Top k s m ℓ ls e fs gs) : s.levels ≠ [] := by
  rw [ht.levels]
  exact List.cons_ne_nil _ _

/-- The cells of that handler are in the stack. -/
theorem Top.cell (ht : Top k s m ℓ ls e fs gs) (hlow : k.stackSpace ≤ x) (hx : x < e) :
    InStack k x :=
  ⟨hlow, by have := chain_room ht.out ht.rest; omega⟩

/-- A handler goes on in its own part of the stack. -/
theorem Top.moves {fs' : List Call} (ht : Top k s m ℓ ls e fs gs) (hi : Inv k s m)
    (hcs : m'.cpu.cs = m.cpu.cs) (hss : m'.cpu.ss = m.cpu.ss) (hldtr : m'.ldtr = m.ldtr)
    (hM : m'.maskM = m.maskM) (hS : m'.maskS = m.maskS)
    (hready : m'.procReady = m.procReady) (hnest : m'.nestedInt = m.nestedInt)
    (hmem : ∀ x, ¬ (k.stackSpace ≤ x ∧ x < e) → m'.mem x = m.mem x)
    (hcalls : m'.calls = fs' ++ gs)
    (hbody : Body k s.current m'.mem m'.cpu e (frameAt e ℓ ls) ℓ fs') : Inv k s m' := by
  refine inv_of_chain hi ht.ne rfl rfl rfl rfl hi.callers ?_ hready hnest ?_
  · intro x hx
    exact hmem x fun h => frame_apart hx (ht.cell h.1 h.2)
  · have hmask : Masks ℓ (contextOf m') := by
      rw [show contextOf m' = { contextOf m with regs := m'.cpu } by
        rw [contextOf, hldtr, hM, hS]; rfl]
      exact ht.mask
    rw [ht.levels, hcalls]
    exact chain_moves ht.low ht.out ht.rest (fun x h₁ _ => hmem x (by omega))
      (fun _ => rfl) (hcs.trans ht.cs) (hss.trans ht.ss) hbody hmask

/-- The room that `kernel.asm` needs. -/
theorem Top.room (ht : Top k s m ℓ ls e fs gs) : k.stackSpace + 8 ≤ e ∧
    (ℓ.entry = .call → k.stackSpace + 24 ≤ e) := by
  have hlow := ht.low
  cases hℓ : ℓ.entry with
  | irq irq =>
      rw [hℓ] at hlow
      exact ⟨hlow, fun h => by cases h⟩
  | call =>
      rw [hℓ] at hlow
      have hroom : Entry.call.room = 24 := rfl
      exact ⟨by omega, fun _ => by omega⟩

/-- A push in that part. -/
theorem push_out {w : Nat} (hx : x ≠ m.cpu.esp - 4) : (m.push w).mem x = m.mem x :=
  Function.update_of_ne hx ..

/-! ### The lines -/

variable {irq : Fin 16} {b : Nat}

/-- `push %1`. -/
theorem inv_irqPush (hi : Inv k s m) (ht : Top k s m ℓ ls e [] gs)
    (hℓ : ℓ.entry = .irq irq) (hesp : m.cpu.esp = e) :
    Inv k s ((m.push irq.val).goto (k.code (.hwint irq .call))) := by
  have hlow := ht.room.1
  refine ht.moves hi rfl rfl rfl rfl rfl rfl rfl ?_ ht.calls ?_
  · intro x hx
    exact push_out (by omega)
  · refine .irqCall hℓ rfl ?_ (Function.update_self ..)
    show m.cpu.esp - 4 + 4 = e
    omega

/-- `call [irq_table + 4 * %1]`. -/
theorem inv_irqCall (hi : Inv k s m) (ht : Top k s m ℓ ls e [] gs)
    (hℓ : ℓ.entry = .irq irq) (hesp : m.cpu.esp + 4 = e) :
    Inv k s (callC (k.irqTable irq) (k.code (.hwint irq .pop)) 1 m) := by
  have hlow := ht.room.1
  have hcalls : ⟨m.cpu.esp - 4, 1⟩ :: m.calls = [⟨m.cpu.esp - 4, 1⟩] ++ gs := by
    rw [ht.calls]
    rfl
  refine ht.moves hi rfl rfl rfl rfl rfl rfl rfl ?_ hcalls ?_
  · intro x hx
    exact push_out (by omega)
  · refine .irqHandler hℓ (k.irq_compiled irq) ?_ (Nat.le_refl _) ?_ (Function.update_self ..)
    · show k.stackSpace ≤ m.cpu.esp - 4
      omega
    · show m.cpu.esp - 4 + 8 = e
      omega

/-- `pop ecx`. -/
theorem inv_irqPop (hi : Inv k s m) (ht : Top k s m ℓ ls e [] gs)
    (hℓ : ℓ.entry = .irq irq) (hesp : m.cpu.esp + 4 = e) :
    Inv k s ((m.pop fun r w => { r with ecx := w }).goto (k.code (.hwint irq .cli))) :=
  ht.moves hi rfl rfl rfl rfl rfl rfl rfl (fun _ _ => rfl) ht.calls (.irqCli hℓ rfl hesp)

/-! ### The system call -/

theorem pushed_length {r : Regs} {p : SysCallPoint} {q : Nat} {ws : List Nat}
    (h : pushed r b q p = some ws) : ws.length ≤ 5 := by
  cases p <;> cases h <;> exact Nat.le_of_ble_eq_true rfl

/-- A push in front of the call. -/
theorem inv_prepares {p' : SysCallPoint} {ws : List Nat} {w : Nat} (hi : Inv k s m)
    (ht : Top k s m ℓ ls e [] gs) (hℓ : ℓ.entry = .call) (hcur : s.current = ℓ.caller)
    (hp : pushed ℓ.context.regs (frameAt e ℓ ls) ℓ.caller p' = some (w :: ws))
    (hesp : m.cpu.esp + 4 * ws.length = e) (hws : Holds m.mem m.cpu.esp ws)
    (hesi : m.cpu.esi = frameAt e ℓ ls) (hn : ℓ.context.regs.eax < NR_SYS_CALL)
    (heax : m.cpu.eax = ℓ.context.regs.eax) (hebx : m.cpu.ebx = ℓ.context.regs.ebx)
    (hecx : m.cpu.ecx = ℓ.context.regs.ecx) (hedx : m.cpu.edx = ℓ.context.regs.edx) :
    Inv k s ((m.push w).goto (k.code (.sysCall p'))) := by
  have hlow := ht.room.2 hℓ
  have hlen := pushed_length hp
  rw [List.length_cons] at hlen
  refine ht.moves hi rfl rfl rfl rfl rfl rfl rfl ?_ ht.calls ?_
  · intro x hx
    exact push_out (by omega)
  · refine .prepares hℓ hp hcur rfl ?_ ⟨Function.update_self .., ?_⟩ hesi hn heax hebx hecx
      hedx
    · show m.cpu.esp - 4 + 4 * (w :: ws).length = e
      rw [List.length_cons]
      omega
    · show Holds (m.push w).mem (m.cpu.esp - 4 + 4) ws
      rw [Nat.sub_add_cancel (by omega)]
      exact holds_congr (fun x h₁ _ => push_out (by omega)) hws

/-- `call [sys_call_table + eax * 4]`. -/
theorem inv_sysCall (hi : Inv k s m) (ht : Top k s m ℓ ls e [] gs) (hℓ : ℓ.entry = .call)
    (hesp : m.cpu.esp + 20 = e) (hb : m.mem (m.cpu.esp + 16) = frameAt e ℓ ls)
    (hn : ℓ.context.regs.eax < NR_SYS_CALL) (heax : m.cpu.eax = ℓ.context.regs.eax) :
    Inv k s (callC (k.sysCallTable m.cpu.eax) (k.code (.sysCall .add)) 4 m) := by
  have hlow := ht.room.2 hℓ
  have hcalls : ⟨m.cpu.esp - 4, 4⟩ :: m.calls = [⟨m.cpu.esp - 4, 4⟩] ++ gs := by
    rw [ht.calls]
    rfl
  refine ht.moves hi rfl rfl rfl rfl rfl rfl rfl ?_ hcalls ?_
  · intro x hx
    exact push_out (by omega)
  · refine .sysHandler (t := m.cpu.esp - 4) hℓ ?_ ?_ (Nat.le_refl _) ?_
      (Function.update_self ..) ?_
    · exact fun p => k.sys_compiled _ p (by rw [heax]; exact hn)
    · show k.stackSpace ≤ m.cpu.esp - 4
      omega
    · omega
    · show (m.push _).mem (m.cpu.esp - 4 + 20) = _
      rw [push_out (by omega), ← hb]
      congr 1
      omega

/-- `add esp, 4 * 4`. -/
theorem inv_sysAdd (hi : Inv k s m) (ht : Top k s m ℓ ls e [] gs) (hℓ : ℓ.entry = .call)
    (hesp : m.cpu.esp + 20 = e) (hb : m.mem (m.cpu.esp + 16) = frameAt e ℓ ls)
    (hres : ℓ.result = some m.cpu.eax) :
    Inv k s ({ m with cpu.esp := m.cpu.esp + 4 * 4 }.goto (k.code (.sysCall .popEsi))) :=
  ht.moves hi rfl rfl rfl rfl rfl rfl rfl (fun _ _ => rfl) ht.calls
    (.sysPop hℓ rfl hesp hb hres)

/-- `pop esi`. -/
theorem inv_sysPop (hi : Inv k s m) (ht : Top k s m ℓ ls e [] gs) (hℓ : ℓ.entry = .call)
    (hesp : m.cpu.esp + 4 = e) (hb : m.mem m.cpu.esp = frameAt e ℓ ls)
    (hres : ℓ.result = some m.cpu.eax) :
    Inv k s ((m.pop fun r w => { r with esi := w }).goto (k.code (.sysCall .store))) :=
  ht.moves hi rfl rfl rfl rfl rfl rfl rfl (fun _ _ => rfl) ht.calls
    (.sysStore hℓ rfl hesp hb hres)

/-- `eax` of a frame, and no other register. -/
theorem readFrame_store {mem : Nat → Nat} {b v : Nat} :
    readFrame (Function.update mem (b + EAXREG) v) b = { readFrame mem b with eax := v } := by
  have hne : ∀ y, y ≠ 44 → Function.update mem (b + 44) v (b + y) = mem (b + y) :=
    fun y hy => Function.update_of_ne (by omega) ..
  have hbase : Function.update mem (b + 44) v b = mem b :=
    Function.update_of_ne (by omega) ..
  simp only [readFrame, EAXREG, hbase, hne _ (by decide : (4 : Nat) ≠ 44),
    hne _ (by decide : (8 : Nat) ≠ 44), hne _ (by decide : (12 : Nat) ≠ 44),
    hne _ (by decide : (16 : Nat) ≠ 44), hne _ (by decide : (20 : Nat) ≠ 44),
    hne _ (by decide : (24 : Nat) ≠ 44), hne _ (by decide : (32 : Nat) ≠ 44),
    hne _ (by decide : (36 : Nat) ≠ 44), hne _ (by decide : (40 : Nat) ≠ 44),
    hne _ (by decide : (52 : Nat) ≠ 44), hne _ (by decide : (56 : Nat) ≠ 44),
    hne _ (by decide : (60 : Nat) ≠ 44), hne _ (by decide : (64 : Nat) ≠ 44),
    hne _ (by decide : (68 : Nat) ≠ 44), Function.update_self]

/-- A store changes its own cell only. -/
theorem store_out {y v : Nat} (hx : x ≠ y) : Function.update m.mem y v x = m.mem x :=
  Function.update_of_ne hx ..

/-- **THE ANSWER** of a system call goes into the frame of its caller. -/
theorem inv_answers (hi : Inv k s m) (ht : Top k s m ℓ [] e [] gs) (hℓ : ℓ.entry = .call)
    (hesp : m.cpu.esp = e) (hb : m.cpu.esi = ℓ.caller) :
    Inv k (s.note (.answers ℓ.caller m.cpu.eax)) ({ m with
      mem := Function.update m.mem (m.cpu.esi + EAXREG) m.cpu.eax }.goto
      (k.code (.sysCall .cli))) := by
  obtain ⟨p, hp⟩ : ∃ p, ℓ.caller = k.base p :=
    hi.callers ℓ (by rw [ht.levels]; exact List.mem_cons_self ..)
  rw [hb, hp]
  have hin : InFrame k (k.base p + EAXREG) := inframe_cell (by decide)
  have hother : ∀ p' x, p' ≠ p → k.base p' ≤ x → x < k.base p' + P_LDT_SEL + 4 →
      Function.update m.mem (k.base p + EAXREG) m.cpu.eax x = m.mem x := by
    intro p' x hne h₁ h₂
    have hap := base_apart (k := k) hne
    refine store_out ?_
    rw [P_LDT_SEL, P_STACKTOP] at hap h₂
    rw [EAXREG]
    omega
  have hmem : ∀ x, e ≤ x → x < k.stackTop →
      Function.update m.mem (k.base p + EAXREG) m.cpu.eax x = m.mem x := by
    intro x h₁ h₂
    have hlow := ht.room.1
    exact store_out fun hx => frame_apart (hx ▸ hin) ⟨by omega, h₂⟩
  exact {
    frames := by
      have hframe : readFrame (Function.update m.mem (k.base p + EAXREG) m.cpu.eax)
          (k.base p) = { s.regs (k.base p) with eax := m.cpu.eax } := by
        rw [readFrame_store, hi.frames]
      exact fun _ => frames_update hi hframe hother
    ldts := by
      intro p'
      show Function.update m.mem (k.base p + EAXREG) m.cpu.eax (k.base p' + P_LDT_SEL) %
        65536 = s.ldts (k.base p')
      rw [← hi.ldts p']
      congr 1
      by_cases hpp : p' = p
      · refine store_out ?_
        rw [hpp, EAXREG, P_LDT_SEL, P_STACKTOP]
        omega
      · exact (entry_congr fun x => hother p' x hpp).2
    ready := hi.ready
    current := hi.current
    depth := hi.depth
    chain := by
      show Chain k s.current _ _ s.levels m.calls
      rw [ht.levels, ht.calls]
      exact chain_moves ht.low ht.out ht.rest hmem (fun _ => rfl) ht.cs ht.ss
        (.sysCli hℓ rfl hesp) ht.mask
    process := fun h => absurd h ht.ne
    outer := by
      intro _
      show Outer (Function.update s.regs (k.base p) { s.regs (k.base p) with eax := m.cpu.eax }
        s.current).cs
      by_cases hcur : s.current = k.base p
      · rw [hcur, Function.update_self, ← hcur]
        exact hi.outer ht.ne
      · rw [Function.update_of_ne hcur]
        exact hi.outer ht.ne
    callers := hi.callers }

/-- Behind the answer to a system call of the kernel, the code that made it has
    the answer in `eax`. -/
theorem chain_replies {ℓ' : Level} (ht : Top k s m ℓ (ℓ' :: ls) e [] gs)
    (hℓ : ℓ.entry = .call) (hesp : m.cpu.esp = e) :
    let m' := { m with mem := Function.update m.mem (e + 4 + EAXREG) m.cpu.eax }.goto
      (k.code (.sysCall .cli))
    Chain k s.current m'.mem (contextOf m') ({ ℓ with answer := some m.cpu.eax } :: ℓ' :: ls)
      m'.calls := by
  intro m'
  obtain ⟨hword, hframe, hin⟩ := ht.out
  have hback : Level.back { ℓ with answer := some m.cpu.eax } =
      { ℓ.back with regs := { ℓ.back.regs with eax := m.cpu.eax } } := by
    simp only [Level.back, Level.eax, hℓ, Option.getD_some]
  have hbackesp : ℓ.back.regs.esp = e + 68 := wayOut_inner ht.out (List.cons_ne_nil _ _)
  have hout : WayOut k m'.mem e { ℓ with answer := some m.cpu.eax } (ℓ' :: ls) := by
    refine ⟨?_, ?_, hin⟩
    · rw [← hword]
      exact store_out (by rw [EAXREG]; omega)
    · have hstore := @readFrame_store m.mem (e + 4) m.cpu.eax
      rw [hback, ← hframe]
      show { readFrame (Function.update m.mem (e + 4 + EAXREG) m.cpu.eax) (e + 4) with
        esp := e + 68, ss := SELECTOR_KERNEL_DS } = _
      rw [hstore]
  have hrest : Chain k s.current m'.mem (Level.back { ℓ with answer := some m.cpu.eax })
      (ℓ' :: ls) gs := by
    rw [hback]
    refine chain_eax (hin hℓ) (chain_congr (fun x h₁ _ => ?_) ht.rest)
    exact store_out (by rw [EAXREG]; omega)
  show Chain k s.current m'.mem (contextOf m') _ m.calls
  rw [ht.calls]
  exact Chain.level ht.cs ht.ss ht.low (.sysCli hℓ rfl hesp) hout ht.mask hrest

/-- **THE ANSWER** to a system call of the kernel goes into the frame above the
    way out. -/
theorem inv_replies {ℓ' : Level} (hi : Inv k s m) (ht : Top k s m ℓ (ℓ' :: ls) e [] gs)
    (hℓ : ℓ.entry = .call) (hesp : m.cpu.esp = e) (hb : m.cpu.esi = e + 4) :
    Inv k (s.note (.replies m.cpu.eax)) ({ m with
      mem := Function.update m.mem (m.cpu.esi + EAXREG) m.cpu.eax }.goto
      (k.code (.sysCall .cli))) := by
  have hlow := ht.room.1
  have htop := chain_room ht.out ht.rest
  rw [List.length_cons] at htop
  rw [hb]
  refine inv_of_chain hi ht.ne rfl rfl rfl List.length_modifyHead ?_ ?_ rfl rfl ?_
  · intro ℓ'' hℓ''
    exact callers_modify (f := fun ℓ => { ℓ with answer := some m.cpu.eax }) hi.callers
      (fun _ => rfl) hℓ''
  · intro x hx
    refine store_out fun h => frame_apart hx ?_
    rw [h, InStack, EAXREG]
    omega
  · have hlev : (s.note (.replies m.cpu.eax)).levels =
        { ℓ with answer := some m.cpu.eax } :: ℓ' :: ls := by
      rw [Book.note, ht.levels]
      rfl
    rw [hlev]
    exact chain_replies ht hℓ hesp

/-- `nested_int` tells a system call of a process from one of the kernel. -/
theorem nested_zero_iff (hi : Inv k s m) (ht : Top k s m ℓ ls e fs gs) :
    m.nestedInt = 0 ↔ ls = [] := by
  constructor
  · intro hn
    have hone := first_level hi hn
    rw [ht.levels] at hone
    exact List.length_eq_zero_iff.mp (Nat.succ.inj hone)
  · intro hls
    have hdepth := hi.depth
    rw [ht.levels, hls] at hdepth
    exact (BitVec.add_left_inj 1#32).mp hdepth

/-- `mov [esi + EAXREG - P_STACKBASE], eax`. -/
theorem inv_sysStore (hi : Inv k s m) (ht : Top k s m ℓ ls e [] gs) (hℓ : ℓ.entry = .call)
    (hesp : m.cpu.esp = e) (hb : m.cpu.esi = frameAt e ℓ ls) (hres : ℓ.result = some m.cpu.eax)
    (hm' : m' = { m with
      mem := Function.update m.mem (m.cpu.esi + EAXREG) m.cpu.eax }.goto
      (k.code (.sysCall .cli))) :
    Allowed k s (seen m m' (.sysCall .store)) ∧
      Inv k (s.note (seen m m' (.sysCall .store))) m' := by
  have hnested := nested_zero_iff hi ht
  rw [hm', seen]
  cases ls with
  | nil =>
      have hesi : m.cpu.esi = ℓ.caller := hb
      have hinv := inv_answers hi ht hℓ hesp hesi
      rw [if_pos (hnested.mpr rfl), hesi]
      rw [hesi] at hinv
      exact ⟨⟨ℓ, ht.levels, hℓ, rfl, hres⟩, hinv⟩
  | cons ℓ' ls =>
      rw [if_neg fun h => List.cons_ne_nil _ _ (hnested.mp h)]
      exact ⟨⟨ℓ, ℓ', ls, ht.levels, hℓ, hres⟩, inv_replies hi ht hℓ hesp hb⟩

/-! ### The ways out -/

/-- What `ret` finds at the end of a handler. -/
structure Leaving (k : Layout) (s : Book) (m : Machine) (ℓ : Level) (ls : List Level)
    (e : Nat) (gs : List Call) (m₁ : Machine) : Prop where
  top : Top k s m ℓ ls e [] gs
  esp : m₁.cpu.esp = e
  ss : m₁.cpu.ss = m.cpu.ss
  mem : m₁.mem = m.mem
  ready : m₁.procReady = m.procReady
  nested : m₁.nestedInt = m.nestedInt
  calls : m₁.calls = m.calls
  ldtr : m₁.ldtr = m.ldtr
  maskM : m₁.maskM = ℓ.context.maskM
  maskS : m₁.maskS = ℓ.context.maskS

/-- What is seen of it. -/
def left (m' : Machine) : Label :=
  if Outer m'.cpu.cs then .resumes m'.procReady (contextOf m') else .returns (contextOf m')

variable {m₁ : Machine}

/-- One handler less. -/
theorem depth_pred {v : BitVec 32} {n : Nat} (h : v + 1 = BitVec.ofNat 32 (n + 1)) :
    v - 1 + 1 = BitVec.ofNat 32 n := by
  rw [BitVec.ofNat_add] at h
  calc v - 1 + 1 = v := BitVec.sub_add_cancel ..
    _ = v + 1 - 1 := (BitVec.add_sub_cancel ..).symm
    _ = BitVec.ofNat 32 n + 1 - 1 := congrArg (· - 1) h
    _ = BitVec.ofNat 32 n := BitVec.add_sub_cancel ..

/-- **TO A PROCESS**, the one that was picked. -/
theorem inv_resumes (hi : Inv k s m) (hl : Leaving k s m ℓ [] e gs m₁)
    (hm' : m' = switchToUserMode m₁.ret) :
    Allowed k s (left m') ∧ Inv k (s.note (left m')) m' := by
  have ht := hl.top
  obtain ⟨p, hp⟩ := hi.current
  have hready : m₁.ret.procReady = k.base p := by rw [← hp, ← hi.ready]; exact hl.ready
  have hmem : m₁.ret.mem = m.mem := hl.mem
  have hframe : readFrame m₁.ret.mem m₁.ret.procReady = s.regs s.current := by
    rw [hmem, hready, hi.frames, hp]
  have houter : Outer (s.regs s.current).cs := hi.outer ht.ne
  rw [switchToUserMode_outer (by rw [hframe]; exact houter), hframe, hmem, hready,
    hi.ldts] at hm'
  have hleft : left m' = .resumes (k.base p)
      ⟨s.regs s.current, s.ldts (k.base p), ℓ.context.maskM, ℓ.context.maskS⟩ := by
    rw [left, hm', ← hl.maskM, ← hl.maskS]
    exact if_pos houter
  rw [hleft]
  refine ⟨⟨ℓ, p, ht.levels, hp.symm, rfl, by rw [hp], rfl, rfl, rfl⟩, ?_⟩
  have hlev : (s.note (.resumes (k.base p)
      ⟨s.regs s.current, s.ldts (k.base p), ℓ.context.maskM, ℓ.context.maskS⟩)).levels = [] := by
    rw [Book.note, ht.levels]
    rfl
  have hgs : gs = [] := by
    cases ht.rest with
    | process => rfl
  rw [hm']
  exact {
    frames := hi.frames
    ldts := hi.ldts
    ready := hp.symm
    current := ⟨p, hp⟩
    depth := by
      show m₁.nestedInt - 1 + 1 = _
      rw [hlev, hl.nested]
      exact depth_pred (by rw [hi.depth, ht.levels]; rfl)
    chain := by
      show Chain k _ _ _ _ m₁.calls
      rw [hlev, hl.calls, ht.calls, hgs]
      exact .process houter
    process := fun _ => by
      show k.base p + P_STACKTOP = s.current + P_STACKTOP
      rw [hp]
    outer := fun h => absurd hlev h
    callers := fun ℓ' hℓ => by
      rw [hlev] at hℓ
      cases hℓ }

/-- **TO THE KERNEL**, where it was interrupted. -/
theorem inv_returns {ℓ' : Level} (hi : Inv k s m) (hl : Leaving k s m ℓ (ℓ' :: ls) e gs m₁)
    (hm' : m' = switchToUserModeReenter m₁.ret) :
    Allowed k s (left m') ∧ Inv k (s.note (left m')) m' := by
  have ht := hl.top
  obtain ⟨-, hframe, -⟩ := ht.out
  have hcs : ℓ.back.regs.cs = SELECTOR_KERNEL_CS := by
    cases ht.rest with
    | level hcs => exact hcs
  have hesp : m₁.ret.cpu.esp = e + 4 := congrArg (· + 4) hl.esp
  have hmem : m₁.ret.mem = m.mem := hl.mem
  have hcell : m.mem (e + 4 + 56) = SELECTOR_KERNEL_CS := by
    rw [← hcs, ← hframe]
    rfl
  have hss : m₁.ret.cpu.ss = SELECTOR_KERNEL_DS := hl.ss.trans ht.ss
  rw [reenter_inner (by rw [hmem, hesp, hcell]; decide), hmem, hesp, hss,
    show e + 4 + 64 = e + 68 from rfl, hframe] at hm'
  have hinner : ¬ Outer m'.cpu.cs := by
    rw [hm']
    show ¬ Outer ℓ.back.regs.cs
    rw [hcs]
    decide
  have hcontext : contextOf m' = ℓ.back := by
    rw [hm', contextOf]
    show Context.mk ℓ.back.regs m₁.ldtr m₁.maskM m₁.maskS = ℓ.back
    rw [hl.ldtr, hl.maskM, hl.maskS, show m.ldtr = ℓ.context.ldtr from ht.mask.1]
    rfl
  have hleft : left m' = .returns ℓ.back := by
    rw [left, if_neg hinner, hcontext]
  rw [hleft]
  refine ⟨⟨ℓ, ℓ', ls, ht.levels, rfl⟩, ?_⟩
  have hlev : (s.note (.returns ℓ.back)).levels = ℓ' :: ls := by
    rw [Book.note, ht.levels]
    rfl
  exact {
    frames := by rw [hm']; exact hi.frames
    ldts := by rw [hm']; exact hi.ldts
    ready := by rw [hm']; exact hl.ready.trans hi.ready
    current := hi.current
    depth := by
      rw [hlev, hm']
      show m₁.nestedInt - 1 + 1 = _
      rw [hl.nested]
      exact depth_pred (by rw [hi.depth, ht.levels]; rfl)
    chain := by
      rw [hcontext, hlev, hm']
      show Chain k s.current m.mem ℓ.back (ℓ' :: ls) m₁.calls
      rw [hl.calls, ht.calls]
      exact ht.rest
    process := fun h => absurd (hlev.symm.trans h) (List.cons_ne_nil _ _)
    outer := fun _ => hi.outer ht.ne
    callers := fun ℓ'' hℓ => by
      rw [hlev] at hℓ
      exact hi.callers ℓ'' (by rw [ht.levels]; exact List.mem_cons_of_mem _ hℓ) }

/-- The last handler leaves for a process. -/
theorem leave_outer (hl : Leaving k s m ℓ [] e gs m₁) :
    leave k m₁ = some (switchToUserMode m₁.ret) := by
  have hword : m₁.ret.cpu.eip = m.mem e := by
    show m₁.mem m₁.cpu.esp = _
    rw [hl.mem, hl.esp]
  rw [leave, if_pos (hword.trans hl.top.out.2)]

/-- A nested one leaves for the kernel. -/
theorem leave_inner {ℓ' : Level} (hl : Leaving k s m ℓ (ℓ' :: ls) e gs m₁) :
    leave k m₁ = some (switchToUserModeReenter m₁.ret) := by
  have hword : m₁.ret.cpu.eip = k.code .switchToUserModeReenter := by
    show m₁.mem m₁.cpu.esp = _
    rw [hl.mem, hl.esp]
    exact hl.top.out.1
  have hne : m₁.ret.cpu.eip ≠ k.code .switchToUserMode := by
    rw [hword]
    intro h
    cases k.code_injective h
  rw [leave, if_neg hne, if_pos hword]

/-- `ret` at the end of a handler. -/
theorem inv_leaves (hi : Inv k s m) (hl : Leaving k s m ℓ ls e gs m₁)
    (he : leave k m₁ = some m') : Allowed k s (left m') ∧ Inv k (s.note (left m')) m' := by
  cases ls with
  | nil => exact inv_resumes hi hl (Option.some.inj ((leave_outer hl).symm.trans he)).symm
  | cons ℓ' ls => exact inv_returns hi hl (Option.some.inj ((leave_inner hl).symm.trans he)).symm

theorem leave_some (hl : Leaving k s m ℓ ls e gs m₁) : (leave k m₁).isSome := by
  cases ls with
  | nil =>
      rw [leave_outer hl]
      rfl
  | cons ℓ' ls =>
      rw [leave_inner hl]
      rfl

/-! ### One instruction -/

/-- Behind `cli` and the masks, a line's handler can leave. -/
theorem leaving_irq (ht : Top k s m ℓ ls e [] gs) (hℓ : ℓ.entry = .irq irq)
    (hesp : m.cpu.esp = e) : Leaving k s m ℓ ls e gs (unmaskLine irq m.cli) := by
  obtain ⟨-, hmask⟩ := ht.mask
  rw [hℓ] at hmask
  obtain ⟨hoff, hM, hS⟩ := hmask
  have hmask := unmaskLine_masks (m := m.cli) hoff hM hS
  have hsame : ∃ al : Nat, unmaskLine irq m.cli = { m with
      cpu := { m.cli.cpu with eax := al }
      maskM := (unmaskLine irq m.cli).maskM
      maskS := (unmaskLine irq m.cli).maskS } := by
    rw [unmaskLine]
    split <;> exact ⟨_, rfl⟩
  obtain ⟨al, hsame⟩ := hsame
  exact {
    top := ht
    esp := by rw [hsame]; exact hesp
    ss := by rw [hsame]; rfl
    mem := by rw [hsame]
    ready := by rw [hsame]
    nested := by rw [hsame]
    calls := by rw [hsame]
    ldtr := by rw [hsame]
    maskM := hmask.1
    maskS := hmask.2 }

/-- Behind `cli`, `sys_call` can leave. -/
theorem leaving_call (ht : Top k s m ℓ ls e [] gs) (hℓ : ℓ.entry = .call)
    (hesp : m.cpu.esp = e) : Leaving k s m ℓ ls e gs m.cli := by
  obtain ⟨-, hmask⟩ := ht.mask
  rw [hℓ] at hmask
  exact {
    top := ht
    esp := hesp
    ss := rfl
    mem := rfl
    ready := rfl
    nested := rfl
    calls := rfl
    ldtr := rfl
    maskM := hmask.1
    maskS := hmask.2 }

/-- An instruction of `sys_call` up to the call. -/
theorem inv_preparing {p : SysCallPoint} {ws : List Nat} (hi : Inv k s m)
    (ht : Top k s m ℓ ls e [] gs) (hℓ : ℓ.entry = .call)
    (hp : pushed ℓ.context.regs (frameAt e ℓ ls) ℓ.caller p = some ws)
    (hcur : s.current = ℓ.caller) (hesp : m.cpu.esp + 4 * ws.length = e)
    (hws : Holds m.mem m.cpu.esp ws) (hesi : m.cpu.esi = frameAt e ℓ ls)
    (hn : ℓ.context.regs.eax < NR_SYS_CALL) (heax : m.cpu.eax = ℓ.context.regs.eax)
    (hebx : m.cpu.ebx = ℓ.context.regs.ebx) (hecx : m.cpu.ecx = ℓ.context.regs.ecx)
    (hedx : m.cpu.edx = ℓ.context.regs.edx) (he : execSysCall k p m = some m') :
    Allowed k s (seen m m' (.sysCall p)) ∧ Inv k (s.note (seen m m' (.sysCall p))) m' := by
  have hready : m.procReady = ℓ.caller := hi.ready.trans hcur
  have hpush : ∀ p' w ws', pushed ℓ.context.regs (frameAt e ℓ ls) ℓ.caller p' = some (w :: ws') →
      ws = ws' → Inv k s ((m.push w).goto (k.code (.sysCall p'))) := by
    rintro p' w ws' hp' rfl
    exact inv_prepares hi ht hℓ hcur hp' hesp hws hesi hn heax hebx hecx hedx
  generalize hb : frameAt e ℓ ls = b at hp hpush hesi
  cases p with
  | pushEsi =>
      cases hp
      cases he
      exact ⟨ht.ne, hpush .pushProc m.cpu.esi [] (by rw [hesi]; rfl) rfl⟩
  | pushProc =>
      cases hp
      cases he
      exact ⟨ht.ne, hpush .pushEdx m.procReady [b] (by rw [hready]; rfl) rfl⟩
  | pushEdx =>
      cases hp
      cases he
      exact ⟨ht.ne, hpush .pushEcx m.cpu.edx [ℓ.caller, b] (by rw [hedx]; rfl) rfl⟩
  | pushEcx =>
      cases hp
      cases he
      exact ⟨ht.ne, hpush .pushEbx m.cpu.ecx [ℓ.context.regs.edx, ℓ.caller, b]
        (by rw [hecx]; rfl) rfl⟩
  | pushEbx =>
      cases hp
      cases he
      exact ⟨ht.ne, hpush .call m.cpu.ebx [ℓ.context.regs.ecx, ℓ.context.regs.edx, ℓ.caller, b]
        (by rw [hebx]; rfl) rfl⟩
  | call =>
      cases hp
      cases he
      simp only [Holds, Nat.add_assoc, Nat.reduceAdd] at hws
      obtain ⟨h₁, h₂, h₃, h₄, h₅, -⟩ := hws
      refine ⟨?_, inv_sysCall hi ht hℓ hesp (h₅.trans hb.symm) hn heax⟩
      rw [seen, h₁, h₂, h₃, h₄]
      exact ⟨ℓ, ls, ht.levels, hℓ, rfl, hcur.symm, heax, rfl, rfl, rfl⟩
  | saved => cases hp
  | add => cases hp
  | popEsi => cases hp
  | store => cases hp
  | cli => cases hp

/-- **AN INSTRUCTION** of `kernel.asm`. -/
theorem inv_runs {p : Point} (hi : Inv k s m) (ho : ¬ Outer m.cpu.cs)
    (hat : m.cpu.eip = k.code p) (he : exec k p m = some m') :
    Allowed k s (seen m m' p) ∧ Inv k (s.note (seen m m' p)) m' := by
  obtain ⟨ℓ, ls, e, fs, gs, ht⟩ := top_of_inv hi ho
  have hpoint : ∀ {p'}, m.cpu.eip = k.code p' → p = p' :=
    fun h => k.code_injective (hat.symm.trans h)
  cases ht.body with
  | irqPush hℓ hat' hesp =>
      cases hpoint hat'
      cases he
      exact ⟨ht.ne, inv_irqPush hi ht hℓ hesp⟩
  | @irqCall irq hℓ hat' hesp harg =>
      cases hpoint hat'
      cases he
      refine ⟨?_, inv_irqCall hi ht hℓ hesp⟩
      rw [seen, harg]
      exact ⟨irq, ℓ, ls, ht.levels, hℓ, rfl⟩
  | irqHandler _ hin => exact absurd hat (hin p)
  | irqPop hℓ hat' hesp =>
      cases hpoint hat'
      cases he
      exact ⟨ht.ne, inv_irqPop hi ht hℓ hesp⟩
  | irqCli hℓ hat' hesp =>
      cases hpoint hat'
      exact inv_leaves hi (leaving_irq ht hℓ hesp) he
  | prepares hℓ hp hcur hat' hesp hws hesi hn heax hebx hecx hedx =>
      cases hpoint hat'
      exact inv_preparing hi ht hℓ hp hcur hesp hws hesi hn heax hebx hecx hedx he
  | sysHandler _ hin => exact absurd hat (hin p)
  | sysAdd hℓ hat' hesp hb hres =>
      cases hpoint hat'
      cases he
      exact ⟨ht.ne, inv_sysAdd hi ht hℓ hesp hb hres⟩
  | sysPop hℓ hat' hesp hb hres =>
      cases hpoint hat'
      cases he
      exact ⟨ht.ne, inv_sysPop hi ht hℓ hesp hb hres⟩
  | sysStore hℓ hat' hesp hb hres =>
      cases hpoint hat'
      exact inv_sysStore hi ht hℓ hesp hb hres (Option.some.inj he).symm
  | sysCli hℓ hat' hesp =>
      cases hpoint hat'
      exact inv_leaves hi (leaving_call ht hℓ hesp) he

end Top

/-! ## The refinement -/

/-- `run_1st_process` has left. -/
theorem inv_boot (hb : Booted k m₀) : Inv k (Book.boot m₀) (switchToUserMode m₀) := by
  rw [switchToUserMode_outer hb.outer]
  exact {
    frames := fun _ => rfl
    ldts := fun _ => rfl
    ready := rfl
    current := ⟨_, hb.ready⟩
    depth := by
      show m₀.nestedInt - 1 + 1 = _
      rw [hb.nested]
      exact BitVec.sub_add_cancel 0 1
    chain := by
      show Chain k _ _ _ _ m₀.calls
      rw [hb.calls]
      exact .process hb.outer
    process := fun _ => rfl
    outer := fun h => absurd rfl h
    callers := fun _ h => by cases h }

/-- One step of the machine. -/
theorem inv_step {l : Label} (hi : Inv k s m) (hs : Step k m l m') :
    Allowed k s l ∧ Inv k (s.note l) m' := by
  cases hs with
  | works ho hr hmem => exact inv_works hi ho hr hmem
  | pokes ho hr hmem => exact inv_pokes hi ho hr hmem
  | preempts ho hif hline he => exact inv_preempts hi ho hline he
  | traps ho hn he => exact inv_traps hi ho hn he
  | nests ho hif hline hroom he => exact inv_nests hi ho hline hroom he
  | calls ho hin hn hroom he => exact inv_calls hi ho hin hn hroom he
  | runs ho hat he => exact inv_runs hi ho hat he
  | computes ho hin hf hr hcs hss hlow hesp hmem =>
      exact inv_computes hi ho hin hf hr hcs hss hlow hesp hmem
  | picks ho hin hn hp => exact inv_picks hi hin hn hp
  | finishes ho hin hf hesp => exact inv_finishes hi ho hin hf hesp

/-- **REFINEMENT**: the kernel does what its book allows. -/
theorem kernel_simulates (hb : Booted k m₀) :
    Simulates (machine k m₀) (kernel k m₀) fun m s => Inv k s m where
  init := by
    rintro m rfl
    exact ⟨_, rfl, inv_boot hb⟩
  step := by
    intro m m' l s hi hs
    obtain ⟨hallowed, hi'⟩ := inv_step hi hs
    exact ⟨s.note l, ⟨hallowed, rfl⟩, hi'⟩

end KosKernelRuns
