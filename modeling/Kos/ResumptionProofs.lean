import Kos.KernelRunsProofs

/-! # What processes and handlers can rely on

    Read off the traces of the kernel, whatever lines interrupt whatever code
    and whichever processes are picked in between:

    * the process that is resumed is the one that was picked last, with the
      registers it had or was given since, and with the LDT that its entry names
      (`resumed_registers`);
    * code that was interrupted in the kernel goes on as if nothing had happened,
      but for the answer in `eax` if it has made a system call
      (`interrupted_restored`), and a process finds the masks of the 8259A as
      they were when the kernel was entered (`masks_restored`);
    * `nested_int` counts the handlers under way, and no line has two of them
      (`handlers_counted`);
    * a system call is served with the registers of its caller, and answered to
      its caller with what its handler has returned (`system_call_served`,
      `system_call_answered`, `kernel_call_answered`);
    * no return address is lost (`never_astray`). -/

namespace KosResumption

open KosKernel KosKernelEntry TraceRefinement KosContextSwitch KosKernelLevels KosKernelRuns

variable {k : Layout} {m m₀ : Machine} {s : Book} {l l₁ l₂ l₃ : List Label} {e : Label}

/-! ## Traces and books -/

/-- The book of a longer trace. -/
theorem book_append : book m₀ (l₁ ++ e :: l₂) = l₂.foldl Book.note ((book m₀ l₁).note e) := by
  rw [book, book, List.foldl_append, List.foldl_cons]

/-- A run of the abstract kernel is its book. -/
theorem kernel_run (hr : Run (kernel k m₀) l s) : s = book m₀ l ∧
    ∀ l₁ e l₂, l = l₁ ++ e :: l₂ → Allowed k (book m₀ l₁) e := by
  induction hr with
  | start h0 =>
      refine ⟨h0, ?_⟩
      intro l₁ e l₂ hl
      cases List.append_ne_nil_of_right_ne_nil l₁ (List.cons_ne_nil e l₂) hl.symm
  | @next l s t e _ hs ih =>
      obtain ⟨rfl, ih⟩ := ih
      obtain ⟨hallowed, rfl⟩ := hs
      refine ⟨by rw [book_append]; rfl, ?_⟩
      intro l₁ e' l₂ hl
      rcases List.eq_nil_or_concat l₂ with rfl | ⟨l₂', e'', rfl⟩
      · obtain ⟨rfl, he⟩ := List.append_inj' hl rfl
        cases he
        exact hallowed
      · rw [List.concat_eq_append, ← List.cons_append, ← List.append_assoc] at hl
        exact ih l₁ e' l₂' (List.append_inj' hl rfl).1

/-- **EVERY EVENT** of a run is one that the book allows. -/
theorem run_allowed (hb : Booted k m₀) (hr : Run (machine k m₀) (l₁ ++ e :: l₂) m) :
    Allowed k (book m₀ l₁) e :=
  trace_property (P := fun l => ∀ l₁ e l₂, l = l₁ ++ e :: l₂ → Allowed k (book m₀ l₁) e)
    (kernel_simulates hb) (fun _ _ h => (kernel_run h).2) hr l₁ e l₂ rfl

/-- The invariant in every state of a run. -/
theorem run_inv (hb : Booted k m₀) (hr : Run (machine k m₀) l m) : Inv k (book m₀ l) m := by
  obtain ⟨s, hs, hi⟩ := run_simulated (kernel_simulates hb) hr
  rw [← (kernel_run hs).1]
  exact hi

theorem book_snoc : book m₀ (l ++ [e]) = (book m₀ l).note e := book_append

/-! ## A run

    A system call is interrupted by the clock, and another process is picked
    before it is answered. -/

/-- Addresses for the code of `kernel.asm`. -/
def sampleCode : Point → Nat
  | .hwint irq p => 32 + 8 * irq.val + p.ctorIdx
  | .sysCall p => p.ctorIdx
  | .switchToUserMode => 16
  | .switchToUserModeReenter => 17

theorem hwintPoint_lt (p : HwintPoint) : p.ctorIdx < 8 := by
  cases p <;> decide

theorem sysCallPoint_lt (p : SysCallPoint) : p.ctorIdx < 16 := by
  cases p <;> decide

theorem sampleCode_lt (p : Point) : sampleCode p < 200 := by
  rcases p with ⟨irq, p⟩ | p | _ | _
  · have hp := hwintPoint_lt p
    have hirq := irq.isLt
    show 32 + 8 * irq.val + p.ctorIdx < 200
    omega
  · exact (sysCallPoint_lt p).trans (by decide)
  · decide
  · decide

/-- The addresses differ. -/
theorem sampleCode_injective : Function.Injective sampleCode := by
  have hlt := hwintPoint_lt
  have hlt' := sysCallPoint_lt
  rintro (⟨irq, p⟩ | p | _ | _) (⟨irq', p'⟩ | p' | _ | _) h <;> simp only [sampleCode] at h
  · have hp := hlt p
    have hp' := hlt p'
    have hirq : irq = irq' := Fin.ext (by omega)
    have hidx : p.ctorIdx = p'.ctorIdx := by omega
    rw [hirq]
    cases p <;> cases p' <;> first | rfl | cases hidx
  · have := hlt' p'; omega
  · omega
  · omega
  · have := hlt' p; omega
  · cases p <;> cases p' <;> first | rfl | cases h
  · have := hlt' p; omega
  · have := hlt' p; omega
  · omega
  · have := hlt' p'; omega
  · rfl
  · cases h
  · omega
  · have := hlt' p'; omega
  · cases h
  · rfl

/-- The stack of the kernel at `0x1000`, and `proc_table` at `0x2000`. -/
def sampleLayout : Layout where
  stackSpace := 0x1000
  procTable := 0x2000
  procSize := 404
  code := sampleCode
  irqTable irq := 200 + irq.val
  sysCallTable n := 300 + n
  size_le := by decide
  apart := .inl (by decide)
  code_injective := sampleCode_injective
  irq_compiled irq p h := by
    have := sampleCode_lt p
    omega
  sys_compiled n p _ h := by
    have := sampleCode_lt p
    omega

/-- `proc_table` with processes of ring 1 that start at 0. -/
def sampleMem (x : Nat) : Nat :=
  let off := (x - 0x2000) % 404
  if off = 56 then 5
  else if off = 60 then 0x1202
  else if off = 72 then SELECTOR_LDT_FIRST + (x - 0x2000) / 404 * 8
  else 0

/-- The machine when the first process is about to start. -/
def sampleBoot : Machine where
  cpu := readFrame (fun _ => 0) 0
  ldtr := 0
  maskM := 0
  maskS := 0
  mem := sampleMem
  nestedInt := 0
  procReady := 0x2000
  sp0 := 0
  calls := []

/-- That machine is booted. -/
theorem sampleBoot_booted : Booted sampleLayout sampleBoot where
  nested := rfl
  ready := rfl
  outer := by decide
  ldts := by decide
  calls := rfl

/-- The first process, and its system call up to the handler in C. -/
def machine₀ : Machine := switchToUserMode sampleBoot

/-- Behind the entry of the call. -/
def machine₁ : Machine :=
  (callSave sampleLayout (sampleCode (.sysCall .saved)) machine₀.gate).sti.goto
    (sampleCode (.sysCall .pushEsi))

def machine₂ : Machine := (machine₁.push machine₁.cpu.esi).goto (sampleCode (.sysCall .pushProc))
def machine₃ : Machine := (machine₂.push machine₂.procReady).goto (sampleCode (.sysCall .pushEdx))
def machine₄ : Machine := (machine₃.push machine₃.cpu.edx).goto (sampleCode (.sysCall .pushEcx))
def machine₅ : Machine := (machine₄.push machine₄.cpu.ecx).goto (sampleCode (.sysCall .pushEbx))
def machine₆ : Machine := (machine₅.push machine₅.cpu.ebx).goto (sampleCode (.sysCall .call))
def machine₇ : Machine := callC 300 (sampleCode (.sysCall .add)) 4 machine₆

/-- The clock interrupts the handler. -/
def machine₈ : Machine :=
  (maskLine 0 (callSave sampleLayout (sampleCode (.hwint 0 .saved)) machine₇.gate)).sti.goto
    (sampleCode (.hwint 0 .push))

def machine₉ : Machine := (machine₈.push 0).goto (sampleCode (.hwint 0 .call))
def machine₁₀ : Machine := callC 200 (sampleCode (.hwint 0 .pop)) 1 machine₉
def machine₁₁ : Machine := { machine₁₀.ret with calls := machine₁₀.calls.tail }
def machine₁₂ : Machine :=
  (machine₁₁.pop fun r w => { r with ecx := w }).goto (sampleCode (.hwint 0 .cli))
def machine₁₃ : Machine := switchToUserModeReenter (unmaskLine 0 machine₁₂.cli).ret

/-- Another process is picked, and the system call returns. -/
def machine₁₄ : Machine := { machine₁₃ with procReady := sampleLayout.base ⟨1, by decide⟩ }
def machine₁₅ : Machine := { machine₁₄.ret with calls := machine₁₄.calls.tail }
def machine₁₆ : Machine :=
  { machine₁₅ with cpu.esp := machine₁₅.cpu.esp + 4 * 4 }.goto (sampleCode (.sysCall .popEsi))
def machine₁₇ : Machine :=
  (machine₁₆.pop fun r w => { r with esi := w }).goto (sampleCode (.sysCall .store))
def machine₁₈ : Machine := { machine₁₇ with
  mem := Function.update machine₁₇.mem (machine₁₇.cpu.esi + EAXREG) machine₁₇.cpu.eax }.goto
    (sampleCode (.sysCall .cli))
def machine₁₉ : Machine := switchToUserMode machine₁₈.cli.ret

/-- What is seen of the run. -/
def sampleTrace : List Label :=
  [.preempts 0x2000 .call (contextOf machine₀), .computes, .computes, .computes, .computes,
    .computes, .serves 0 0 0 0 0x2000, .nests (.irq 0) (contextOf machine₇), .computes, .handles 0,
    .finishes 0x20, .computes, .returns (contextOf machine₁₃), .picks 0x2194, .finishes 0,
    .computes, .computes, .answers 0x2000 0, .resumes 0x2194 (contextOf machine₁₉)]

/-- The run of the trace. -/
theorem sample_run : Run (machine sampleLayout sampleBoot) sampleTrace machine₁₉ := by
  have runs : ∀ {m m' l e}, Run (machine sampleLayout sampleBoot) l m → ∀ p : Point,
      ¬ Outer m.cpu.cs → m.cpu.eip = sampleCode p → exec sampleLayout p m = some m' →
      seen m m' p = e → Run (machine sampleLayout sampleBoot) (l ++ [e]) m' := by
    rintro m m' l e hr p ho hat he rfl
    exact hr.next (.runs ho hat he)
  have h₀ : Run (machine sampleLayout sampleBoot) [] machine₀ := .start rfl
  have h₁ := h₀.next (.traps (by decide) (by decide) (rfl : _ = some machine₁))
  have h₂ := runs h₁ (.sysCall .pushEsi) (by decide) rfl (rfl : _ = some machine₂) rfl
  have h₃ := runs h₂ (.sysCall .pushProc) (by decide) rfl (rfl : _ = some machine₃) rfl
  have h₄ := runs h₃ (.sysCall .pushEdx) (by decide) rfl (rfl : _ = some machine₄) rfl
  have h₅ := runs h₄ (.sysCall .pushEcx) (by decide) rfl (rfl : _ = some machine₅) rfl
  have h₆ := runs h₅ (.sysCall .pushEbx) (by decide) rfl (rfl : _ = some machine₆) rfl
  have h₇ := runs h₆ (.sysCall .call) (by decide) rfl (rfl : _ = some machine₇)
    (by decide +kernel : _ = Label.serves 0 0 0 0 0x2000)
  have h₈ := h₇.next (.nests (by decide) (by decide) (by decide : ¬ machine₇.masked 0)
    (by decide) (rfl : _ = some machine₈))
  have h₉ := runs h₈ (.hwint 0 .push) (by decide) rfl (rfl : _ = some machine₉) rfl
  have h₁₀ := runs h₉ (.hwint 0 .call) (by decide) rfl (rfl : _ = some machine₁₀)
    (by decide +kernel : _ = Label.handles 0)
  have h₁₁ : Run _ _ machine₁₁ :=
    h₁₀.next (.finishes (by decide) (sampleLayout.irq_compiled 0) rfl rfl)
  have h₁₂ := runs h₁₁ (.hwint 0 .pop) (by decide) rfl (rfl : _ = some machine₁₂) rfl
  have h₁₃ := runs h₁₂ (.hwint 0 .cli) (by decide) rfl (rfl : _ = some machine₁₃)
    (by decide +kernel : _ = Label.returns (contextOf machine₁₃))
  have hin : Compiled sampleLayout machine₁₃.cpu.eip :=
    fun p => sampleLayout.sys_compiled 0 p (by decide)
  have h₁₄ : Run _ _ machine₁₄ :=
    h₁₃.next (.picks (p := ⟨1, by decide⟩) (by decide) hin rfl (by decide))
  have h₁₅ : Run _ _ machine₁₅ := h₁₄.next (.finishes (by decide) hin rfl rfl)
  have h₁₆ := runs h₁₅ (.sysCall .add) (by decide) rfl (rfl : _ = some machine₁₆) rfl
  have h₁₇ := runs h₁₆ (.sysCall .popEsi) (by decide) rfl (rfl : _ = some machine₁₇) rfl
  have h₁₈ := runs h₁₇ (.sysCall .store) (by decide) rfl (rfl : _ = some machine₁₈)
    (by decide +kernel : _ = Label.answers 0x2000 0)
  have h₁₉ := runs h₁₈ (.sysCall .cli) (by decide) rfl (rfl : _ = some machine₁₉)
    (by decide +kernel : _ = Label.resumes 0x2194 (contextOf machine₁₉))
  rw [show machine₀.procReady = 0x2000 by decide +kernel,
    show machine₁₀.cpu.eax = 0x20 by decide +kernel,
    show sampleLayout.base ⟨1, by decide⟩ = 0x2194 by decide +kernel,
    show machine₁₄.cpu.eax = 0 by decide +kernel] at h₁₉
  exact h₁₉

/-! ## Processes -/

/-- What an event says of the registers that a process is to continue with:
    those it had when it was interrupted, those that a task puts into its frame,
    or the answer of `sys_call`. -/
def regsAfter (q : Nat) (r : Regs) : Label → Regs
  | .preempts q' _ c => if q' = q then c.regs else r
  | .pokes q' r' _ => if q' = q then r' else r
  | .answers q' v => if q' = q then { r with eax := v } else r
  | _ => r

/-- What a process continues with, behind a trace. -/
def lastRegs (m₀ : Machine) (q : Nat) (l : List Label) : Regs :=
  l.foldl (regsAfter q) (readFrame m₀.mem q)

/-- The selector above the frame of a process, behind an event. -/
def ldtAfter (q sel : Nat) : Label → Nat
  | .pokes q' _ sel' => if q' = q then sel' else sel
  | _ => sel

/-- Its own, until a task has put another one there. -/
def lastLdt (k : Layout) (p : Pid) (l : List Label) : Nat :=
  l.foldl (ldtAfter (k.base p)) (ldtSel p)

/-- The process that is picked, behind an event. -/
def pickedAfter (q : Nat) : Label → Nat
  | .picks q' => q'
  | _ => q

/-- The process that `schedule` has picked last. -/
def lastPicked (m₀ : Machine) (l : List Label) : Nat := l.foldl pickedAfter m₀.procReady

/-- An event changes the registers as `regsAfter` says. -/
theorem note_regs (q : Nat) : (s.note e).regs q = regsAfter q (s.regs q) e := by
  cases e with
  | preempts q' _ c =>
      show Function.update s.regs q' c.regs q = if q' = q then c.regs else s.regs q
      rw [Function.update_apply, if_congr eq_comm rfl rfl]
  | pokes q' r sel =>
      show Function.update s.regs q' r q = if q' = q then r else s.regs q
      rw [Function.update_apply, if_congr eq_comm rfl rfl]
  | answers q' v =>
      show Function.update s.regs q' { s.regs q' with eax := v } q =
        if q' = q then { s.regs q with eax := v } else s.regs q
      by_cases hq : q' = q
      · rw [hq, Function.update_self, if_pos rfl]
      · rw [Function.update_of_ne (Ne.symm hq), if_neg hq]
  | _ => rfl

/-- And the selectors as `ldtAfter` says. -/
theorem note_ldts (q : Nat) : (s.note e).ldts q = ldtAfter q (s.ldts q) e := by
  cases e with
  | pokes q' r sel =>
      show Function.update s.ldts q' sel q = if q' = q then sel else s.ldts q
      rw [Function.update_apply, if_congr eq_comm rfl rfl]
  | _ => rfl

/-- And the process that is picked. -/
theorem note_current : (s.note e).current = pickedAfter s.current e := by
  cases e <;> rfl

/-- The registers of the book, read off the trace. -/
theorem book_regs (q : Nat) : (book m₀ l).regs q = lastRegs m₀ q l :=
  (List.foldl_hom (fun s : Book => s.regs q) fun _ _ => (note_regs q).symm).symm

/-- The selectors of the book, read off the trace. -/
theorem book_ldts (hb : Booted k m₀) (p : Pid) :
    (book m₀ l).ldts (k.base p) = lastLdt k p l := by
  rw [lastLdt, ← hb.ldts p]
  exact (List.foldl_hom (fun s : Book => s.ldts (k.base p)) fun _ _ => (note_ldts _).symm).symm

/-- The process of the book, read off the trace. -/
theorem book_current : (book m₀ l).current = lastPicked m₀ l :=
  (List.foldl_hom Book.current fun _ _ => note_current.symm).symm

/-- **A PROCESS IS RESUMED** with its last registers and the LDT that its entry
    names, and it is the one that was picked. -/
theorem resumed_registers {q : Nat} {c : Context} (hb : Booted k m₀)
    (hr : Run (machine k m₀) (l₁ ++ .resumes q c :: l₂) m) :
    q = lastPicked m₀ l₁ ∧ c.regs = lastRegs m₀ q l₁ ∧
      ∃ p, q = k.base p ∧ c.ldtr = lastLdt k p l₁ := by
  obtain ⟨ℓ, p, -, hcur, hp, hregs, hldtr, -⟩ := run_allowed hb hr
  rw [← book_current, ← book_regs]
  refine ⟨hcur, hregs, p, hp, ?_⟩
  rw [hldtr, hp, book_ldts hb]

theorem resumed_registers_picked :
    (contextOf machine₁₉).regs = lastRegs sampleBoot 0x2194 (sampleTrace.take 18) ∧
      (contextOf machine₁₉).ldtr = 0x30 := by
  have hr : Run (machine sampleLayout sampleBoot)
      (sampleTrace.take 18 ++ .resumes 0x2194 (contextOf machine₁₉) :: []) machine₁₉ := sample_run
  exact ⟨(resumed_registers sampleBoot_booted hr).2.1, by decide +kernel⟩

/-! ## Levels -/

/-- Neither a way into the kernel nor one out of it. -/
def Flat : Label → Prop
  | .preempts _ _ _ | .nests _ _ | .returns _ | .resumes _ _ => False
  | _ => True

/-- Every handler that starts in such a trace also returns in it. -/
inductive Balanced : List Label → Prop where
  | nil : Balanced []
  | event {e : Label} {l : List Label} (he : Flat e) (h : Balanced l) : Balanced (e :: l)
  | handler {ent : Entry} {c c' : Context} {l l' : List Label} (h : Balanced l)
      (h' : Balanced l') : Balanced (.nests ent c :: (l ++ .returns c' :: l'))

/-- One balanced trace behind the other. -/
theorem Balanced.append (h : Balanced l) (h' : Balanced l₁) : Balanced (l ++ l₁) := by
  induction h with
  | nil => exact h'
  | event he _ ih => exact .event he ih
  | @handler ent c c' l l' h₁ _ _ ih =>
      rw [List.cons_append, List.append_assoc, List.cons_append]
      exact .handler h₁ ih

/-- A level before and after: what its entry has fixed stays. -/
structure OneEntry (ℓ ℓ' : Level) : Prop where
  entry : ℓ'.entry = ℓ.entry
  caller : ℓ'.caller = ℓ.caller
  context : ℓ'.context = ℓ.context

theorem OneEntry.refl (ℓ : Level) : OneEntry ℓ ℓ := ⟨rfl, rfl, rfl⟩

theorem OneEntry.trans {ℓ₁ ℓ₂ ℓ₃ : Level} (h : OneEntry ℓ₁ ℓ₂) (h' : OneEntry ℓ₂ ℓ₃) :
    OneEntry ℓ₁ ℓ₃ :=
  ⟨h'.entry.trans h.entry, h'.caller.trans h.caller, h'.context.trans h.context⟩

section Levels

variable {ℓ ℓ' : Level} {ls : List Level} {v : Nat}

/-- A flat event changes at most what the innermost level has returned or answered. -/
theorem note_flat (he : Flat e) (hlev : s.levels = ℓ :: ls) :
    ∃ ℓ', (s.note e).levels = ℓ' :: ls ∧ OneEntry ℓ ℓ' ∧
      (ℓ'.result = ℓ.result ∨ ∃ v, e = .finishes v ∧ ℓ'.result = some v) := by
  cases e with
  | preempts => cases he
  | nests => cases he
  | returns => cases he
  | resumes => cases he
  | finishes v =>
      refine ⟨{ ℓ with result := some v }, ?_, ⟨rfl, rfl, rfl⟩, .inr ⟨v, rfl, rfl⟩⟩
      rw [Book.note, hlev]
      rfl
  | replies v =>
      refine ⟨{ ℓ with answer := some v }, ?_, ⟨rfl, rfl, rfl⟩, .inl rfl⟩
      rw [Book.note, hlev]
      rfl
  | _ => exact ⟨ℓ, hlev, .refl ℓ, .inl rfl⟩

/-- When a handler returns, the levels are those in front of its entry. -/
theorem levels_returned {ent : Entry} {c c' : Context}
    (h : (l.foldl Book.note (s.note (.nests ent c))).levels = ℓ' :: s.levels) :
    ((l.foldl Book.note (s.note (.nests ent c))).note (.returns c')).levels = s.levels := by
  show (List.foldl Book.note _ l).levels.tail = _
  rw [h, List.tail_cons]

/-- A balanced trace leaves the levels under the innermost one. -/
theorem balanced_levels (h : Balanced l) (hlev : s.levels = ℓ :: ls) :
    ∃ ℓ', (l.foldl Book.note s).levels = ℓ' :: ls ∧ OneEntry ℓ ℓ' := by
  induction h generalizing s ℓ ls with
  | nil => exact ⟨ℓ, hlev, .refl ℓ⟩
  | event he _ ih =>
      obtain ⟨ℓ₁, hlev₁, hone₁, -⟩ := note_flat he hlev
      obtain ⟨ℓ₂, hlev₂, hone₂⟩ := ih hlev₁
      exact ⟨ℓ₂, hlev₂, hone₁.trans hone₂⟩
  | @handler ent c c' l l' _ _ ih ih' =>
      obtain ⟨ℓ₁, hlev₁, -⟩ := ih (s := s.note (.nests ent c)) rfl
      rw [List.foldl_cons, List.foldl_append, List.foldl_cons]
      exact ih' ((levels_returned hlev₁).trans hlev)

/-- What the function in C of the innermost level has returned, it has returned
    at that level. -/
theorem balanced_result (h : Balanced l) (hlev : s.levels = ℓ :: ls)
    (hlev' : (l.foldl Book.note s).levels = ℓ' :: ls) (hres : ℓ'.result = some v) :
    ℓ.result = some v ∨
      ∃ b d, l = b ++ .finishes v :: d ∧ Balanced b ∧ Balanced d := by
  induction h generalizing s ℓ with
  | nil =>
      rw [List.foldl_nil, hlev] at hlev'
      rw [(List.cons.inj hlev').1]
      exact .inl hres
  | @event e l he hl ih =>
      obtain ⟨ℓ₁, hlev₁, -, hkeep⟩ := note_flat he hlev
      rcases ih hlev₁ hlev' with h | ⟨b, d, rfl, hb, hd⟩
      · rcases hkeep with hsame | ⟨w, rfl, hw⟩
        · exact .inl (hsame ▸ h)
        · cases Option.some.inj (hw.symm.trans h)
          exact .inr ⟨[], l, rfl, .nil, hl⟩
      · exact .inr ⟨e :: b, d, rfl, .event he hb, hd⟩
  | @handler ent c c' l l' hl _ _ ih' =>
      obtain ⟨ℓ₁, hlev₁, -⟩ := balanced_levels (s := s.note (.nests ent c)) hl rfl
      rw [List.foldl_cons, List.foldl_append, List.foldl_cons] at hlev'
      rcases ih' ((levels_returned hlev₁).trans hlev) hlev' with h | ⟨b, d, rfl, hb, hd⟩
      · exact .inl h
      · refine .inr ⟨.nests ent c :: (l ++ .returns c' :: b), d, ?_, .handler hl hb, hd⟩
        rw [List.cons_append, List.append_assoc, List.cons_append]

/-- Without a level there is none behind it. -/
theorem note_flat_nil (he : Flat e) (hlev : s.levels = []) : (s.note e).levels = [] := by
  cases e with
  | preempts => cases he
  | nests => cases he
  | returns => cases he
  | resumes => cases he
  | finishes v =>
      rw [Book.note, hlev]
      rfl
  | replies v =>
      rw [Book.note, hlev]
      rfl
  | _ => exact hlev

/-- The way in of a level. -/
def Enters (m₀ : Machine) (a : List Label) (ℓ : Level) (e : Label) : Prop :=
  (book m₀ a).levels = [] ∧ e = .preempts ℓ.caller ℓ.entry ℓ.context ∨
    (book m₀ a).levels ≠ [] ∧ e = .nests ℓ.entry ℓ.context

/-- The way in depends on what the entry has fixed. -/
theorem Enters.one {a : List Label} (h : Enters m₀ a ℓ e) (hone : OneEntry ℓ ℓ') :
    Enters m₀ a ℓ' e := by
  rw [Enters, hone.entry, hone.caller, hone.context]
  exact h

/-- The last event of a trace and what it leaves. -/
theorem last_entered {l₀ : List Label} (hallowed : Allowed k (book m₀ l₀) e)
    (hlev : (book m₀ (l₀ ++ [e])).levels = ℓ :: ls) :
    (Flat e ∧ ∃ ℓ₀, (book m₀ l₀).levels = ℓ₀ :: ls ∧ OneEntry ℓ₀ ℓ) ∨
      ((book m₀ l₀).levels = ls ∧ Enters m₀ l₀ ℓ e) ∨
      ∃ ℓ₀ c, e = .returns c ∧ (book m₀ l₀).levels = ℓ₀ :: ℓ :: ls := by
  rw [book_snoc] at hlev
  by_cases hflat : Flat e
  · cases hls : (book m₀ l₀).levels with
    | nil =>
        rw [note_flat_nil hflat hls] at hlev
        cases hlev
    | cons ℓ₀ ls₀ =>
        obtain ⟨ℓ₁, hlev₁, hone, -⟩ := note_flat hflat hls
        rw [hlev] at hlev₁
        obtain ⟨rfl, rfl⟩ := List.cons.inj hlev₁
        exact .inl ⟨hflat, ℓ₀, rfl, hone⟩
  · cases e with
    | preempts q ent c =>
        obtain ⟨rfl, rfl⟩ := List.cons.inj hlev
        exact .inr (.inl ⟨rfl, .inl ⟨hallowed.1, rfl⟩⟩)
    | nests ent c =>
        obtain ⟨rfl, rfl⟩ := List.cons.inj hlev
        exact .inr (.inl ⟨rfl, .inr ⟨hallowed.1, rfl⟩⟩)
    | returns c =>
        obtain ⟨ℓ₀, ℓ₁, ls₁, hlev₁, -⟩ := hallowed
        have hlev : (book m₀ l₀).levels.tail = ℓ :: ls := hlev
        rw [hlev₁] at hlev
        obtain ⟨rfl, rfl⟩ := List.cons.inj hlev
        exact .inr (.inr ⟨ℓ₀, c, rfl, hlev₁⟩)
    | resumes q c =>
        obtain ⟨ℓ₀, p, hlev₁, -⟩ := hallowed
        have hlev : (book m₀ l₀).levels.tail = ℓ :: ls := hlev
        rw [hlev₁] at hlev
        cases hlev
    | _ => exact absurd trivial hflat

/-- **EVERY LEVEL** has been entered, and what has come since is balanced. -/
theorem level_entered (hall : ∀ l₁ e l₂, l = l₁ ++ e :: l₂ → Allowed k (book m₀ l₁) e)
    (hlev : (book m₀ l).levels = ℓ :: ls) :
    ∃ a e b, l = a ++ e :: b ∧ Balanced b ∧ (book m₀ a).levels = ls ∧ Enters m₀ a ℓ e := by
  induction hn : l.length using Nat.strong_induction_on generalizing l ℓ ls with
  | _ n ih =>
  rcases List.eq_nil_or_concat l with rfl | ⟨l₀, e, hl⟩
  · cases hlev
  rw [List.concat_eq_append] at hl
  subst hl
  rw [List.length_append, List.length_singleton] at hn
  have hall₀ : ∀ l₁ e' l₂, l₀ = l₁ ++ e' :: l₂ → Allowed k (book m₀ l₁) e' := by
    rintro l₁ e' l₂ rfl
    exact hall l₁ e' (l₂ ++ [e]) (by rw [List.append_assoc, List.cons_append])
  rcases last_entered (hall l₀ e [] rfl) hlev with ⟨hflat, ℓ₀, hlev₀, hone⟩ | ⟨hls, hin⟩ |
    ⟨ℓ₀, c, rfl, hlev₀⟩
  · obtain ⟨a, e', b, rfl, hbal, hls, hin⟩ := ih l₀.length (by omega) hall₀ hlev₀ rfl
    refine ⟨a, e', b ++ [e], by rw [List.append_assoc, List.cons_append], ?_, hls, hin.one hone⟩
    exact hbal.append (.event hflat .nil)
  · exact ⟨l₀, e, [], rfl, .nil, hls, hin⟩
  · -- the handler that returns was entered after the one it returns to
    obtain ⟨a₀, e₀, b₀, rfl, hbal₀, hls₀, hin₀⟩ := ih l₀.length (by omega) hall₀ hlev₀ rfl
    have hall₁ : ∀ l₁ e' l₂, a₀ = l₁ ++ e' :: l₂ → Allowed k (book m₀ l₁) e' := by
      rintro l₁ e' l₂ rfl
      exact hall₀ l₁ e' (l₂ ++ e₀ :: b₀) (by rw [List.append_assoc, List.cons_append])
    have hlen : a₀.length < n := by
      rw [← hn, List.length_append, List.length_cons]
      omega
    obtain ⟨a, e', b, rfl, hbal, hls, hin⟩ := ih a₀.length hlen hall₁ hls₀ rfl
    rcases hin₀ with ⟨hnil, -⟩ | ⟨-, rfl⟩
    · rw [hls₀] at hnil
      cases hnil
    · refine ⟨a, e', b ++ .nests ℓ₀.entry ℓ₀.context :: (b₀ ++ [.returns c]), ?_, ?_, hls, hin⟩
      · simp only [List.append_assoc, List.cons_append]
      · exact hbal.append (.handler hbal₀ .nil)

/-- Behind it the level is there, without a result. -/
theorem Enters.levels {a : List Label} (h : Enters m₀ a ℓ e) :
    ∃ ℓ', ((book m₀ a).note e).levels = ℓ' :: (book m₀ a).levels ∧ ℓ'.result = none := by
  rcases h with ⟨-, rfl⟩ | ⟨-, rfl⟩
  · exact ⟨_, rfl, rfl⟩
  · exact ⟨_, rfl, rfl⟩

/-- What the function in C of a level has returned. -/
theorem result_finished (hall : ∀ l₁ e l₂, l = l₁ ++ e :: l₂ → Allowed k (book m₀ l₁) e)
    (hlev : (book m₀ l).levels = ℓ :: ls) (hres : ℓ.result = some v) :
    ∃ a e b d, l = a ++ e :: (b ++ .finishes v :: d) ∧ Balanced b ∧ Balanced d ∧
      (book m₀ a).levels = ls ∧ Enters m₀ a ℓ e := by
  obtain ⟨a, e, b, rfl, hbal, rfl, hin⟩ := level_entered hall hlev
  obtain ⟨ℓ₀, hlev₀, hnone⟩ := hin.levels
  rw [book_append] at hlev
  rcases balanced_result hbal hlev₀ hlev hres with h | ⟨b, d, rfl, hb, hd⟩
  · rw [hnone] at h
    cases h
  · exact ⟨a, e, b, d, rfl, hb, hd, rfl, hin⟩

end Levels

/-- The events in front of one are allowed as well. -/
theorem prefix_allowed (hb : Booted k m₀) (hr : Run (machine k m₀) (l₁ ++ l₂) m) :
    ∀ a e b, l₁ = a ++ e :: b → Allowed k (book m₀ a) e := by
  rintro a e b rfl
  rw [List.append_assoc, List.cons_append] at hr
  exact run_allowed hb hr

/-! ## Handlers -/

/-- **CODE OF THE KERNEL** goes on with the registers, the LDT and the masks that
    it had when a line interrupted it; when it has made a system call, all but
    `eax` is as it was. -/
theorem interrupted_restored {c' : Context} (hb : Booted k m₀)
    (hr : Run (machine k m₀) (l₁ ++ .returns c' :: l₂) m) :
    ∃ a ent c b, l₁ = a ++ .nests ent c :: b ∧ Balanced b ∧
      c' = { c with regs := { c.regs with eax := c'.regs.eax } } ∧
      ∀ irq, ent = .irq irq → c' = c := by
  obtain ⟨ℓ, ℓ', ls, hlev, rfl⟩ := run_allowed hb hr
  obtain ⟨a, e, b, rfl, hbal, hls, hin⟩ := level_entered (prefix_allowed hb hr) hlev
  rcases hin with ⟨hnil, -⟩ | ⟨-, rfl⟩
  · rw [hls] at hnil
    cases hnil
  · refine ⟨a, ℓ.entry, ℓ.context, b, rfl, hbal, rfl, ?_⟩
    intro irq hirq
    rw [Level.back, Level.eax, hirq]

theorem interrupted_restored_clock : ∃ a ent c b,
    sampleTrace.take 12 = a ++ .nests ent c :: b ∧ Balanced b ∧
      contextOf machine₁₃ =
        { c with regs := { c.regs with eax := (contextOf machine₁₃).regs.eax } } ∧
      ∀ irq, ent = .irq irq → contextOf machine₁₃ = c := by
  have hr : Run (machine sampleLayout sampleBoot)
      (sampleTrace.take 12 ++ .returns (contextOf machine₁₃) :: sampleTrace.drop 13)
      machine₁₉ := sample_run
  exact interrupted_restored sampleBoot_booted hr

/-- The handlers under way, the innermost first. -/
def entriesAfter (es : List Entry) : Label → List Entry
  | .preempts _ ent _ => ent :: es
  | .nests ent _ => ent :: es
  | .returns _ | .resumes _ _ => es.tail
  | _ => es

/-- The handlers under way behind a trace, the innermost first. -/
def underWay (l : List Label) : List Entry := l.foldl entriesAfter []

theorem map_modifyHead {ls : List Level} {f : Level → Level}
    (hf : ∀ ℓ, (f ℓ).entry = ℓ.entry) :
    (ls.modifyHead f).map Level.entry = ls.map Level.entry := by
  cases ls with
  | nil => rfl
  | cons ℓ ls => exact congrArg (· :: _) (hf ℓ)

/-- An event changes the handlers as `entriesAfter` says. -/
theorem note_entries :
    (s.note e).levels.map Level.entry = entriesAfter (s.levels.map Level.entry) e := by
  cases e with
  | finishes v => exact map_modifyHead fun _ => rfl
  | replies v => exact map_modifyHead fun _ => rfl
  | returns c => exact List.map_tail
  | resumes q c => exact List.map_tail
  | _ => rfl

/-- The handlers of the book, read off the trace. -/
theorem book_entries : (book m₀ l).levels.map Level.entry = underWay l :=
  (List.foldl_hom (fun s : Book => s.levels.map Level.entry) fun _ _ => note_entries.symm).symm

/-- **`nested_int` COUNTS** the handlers under way, of which the stack holds 30 at
    most; no line has two of them, and each line that has one is masked. -/
theorem handlers_counted (hb : Booted k m₀) (hr : Run (machine k m₀) l m) :
    m.nestedInt + 1 = BitVec.ofNat 32 (underWay l).length ∧ (underWay l).length ≤ 30 ∧
      (lines (underWay l)).Nodup ∧ ∀ irq, Entry.irq irq ∈ underWay l → m.masked irq := by
  have hi := run_inv hb hr
  rw [← @book_entries m₀ l, List.length_map]
  exact ⟨hi.depth, chain_length hi.chain, chain_nodup hi.chain,
    fun irq h => masked_iff.mpr (chain_masked hi.chain h)⟩

theorem handlers_counted_clock :
    machine₁₉.nestedInt + 1 = BitVec.ofNat 32 (underWay sampleTrace).length :=
  (handlers_counted sampleBoot_booted sample_run).1

/-- **THE MASKS** of the 8259A are those that the process has left. -/
theorem masks_restored {q' : Nat} {c' : Context} (hb : Booted k m₀)
    (hr : Run (machine k m₀) (l₁ ++ .resumes q' c' :: l₂) m) :
    ∃ a q ent c b, l₁ = a ++ .preempts q ent c :: b ∧ Balanced b ∧
      c'.maskM = c.maskM ∧ c'.maskS = c.maskS := by
  obtain ⟨ℓ, p, hlev, -, -, -, -, hM, hS⟩ := run_allowed hb hr
  obtain ⟨a, e, b, rfl, hbal, hls, hin⟩ := level_entered (prefix_allowed hb hr) hlev
  rcases hin with ⟨-, rfl⟩ | ⟨hne, -⟩
  · exact ⟨a, ℓ.caller, ℓ.entry, ℓ.context, b, rfl, hbal, hM, hS⟩
  · exact absurd hls hne

theorem masks_restored_picked : ∃ a q ent c b,
    sampleTrace.take 18 = a ++ .preempts q ent c :: b ∧ Balanced b ∧
      (contextOf machine₁₉).maskM = c.maskM ∧ (contextOf machine₁₉).maskS = c.maskS := by
  have hr : Run (machine sampleLayout sampleBoot)
      (sampleTrace.take 18 ++ .resumes 0x2194 (contextOf machine₁₉) :: []) machine₁₉ := sample_run
  exact masks_restored sampleBoot_booted hr

/-! ## System calls -/

/-- **A SYSTEM CALL IS SERVED** with the registers of the code that made it,
    whatever has interrupted `sys_call` in between. -/
theorem system_call_served {n ebx ecx edx q : Nat} (hb : Booted k m₀)
    (hr : Run (machine k m₀) (l₁ ++ .serves n ebx ecx edx q :: l₂) m) :
    ∃ a e c b, l₁ = a ++ e :: b ∧ Balanced b ∧
      (e = .preempts q .call c ∨ e = .nests .call c) ∧ q = lastPicked m₀ l₁ ∧
      n = c.regs.eax ∧ ebx = c.regs.ebx ∧ ecx = c.regs.ecx ∧ edx = c.regs.edx := by
  obtain ⟨ℓ, ls, hlev, hℓ, hq, hcur, hregs⟩ := run_allowed hb hr
  rw [book_current] at hcur
  obtain ⟨a, e, b, rfl, hbal, -, hin⟩ := level_entered (prefix_allowed hb hr) hlev
  refine ⟨a, e, ℓ.context, b, rfl, hbal, ?_, hcur, hregs⟩
  rw [Enters, hℓ, ← hq] at hin
  exact hin.imp And.right And.right

theorem system_call_served_first : ∃ a e c b, sampleTrace.take 6 = a ++ e :: b ∧ Balanced b ∧
    (e = .preempts 0x2000 .call c ∨ e = .nests .call c) ∧
      0x2000 = lastPicked sampleBoot (sampleTrace.take 6) ∧
      0 = c.regs.eax ∧ 0 = c.regs.ebx ∧ 0 = c.regs.ecx ∧ 0 = c.regs.edx := by
  have hr : Run (machine sampleLayout sampleBoot)
      (sampleTrace.take 6 ++ .serves 0 0 0 0 0x2000 :: sampleTrace.drop 7) machine₁₉ := sample_run
  exact system_call_served sampleBoot_booted hr

/-- **A SYSTEM CALL IS ANSWERED** to its caller, with what the function that
    `sys_call` has called returned. -/
theorem system_call_answered {q v : Nat} (hb : Booted k m₀)
    (hr : Run (machine k m₀) (l₁ ++ .answers q v :: l₂) m) :
    ∃ a c b d, l₁ = a ++ .preempts q .call c :: (b ++ .finishes v :: d) ∧ Balanced b ∧
      Balanced d := by
  obtain ⟨ℓ, hlev, hℓ, rfl, hres⟩ := run_allowed hb hr
  obtain ⟨a, e, b, d, rfl, hbal, hbal', hls, hin⟩ :=
    result_finished (prefix_allowed hb hr) hlev hres
  rcases hin with ⟨-, rfl⟩ | ⟨hne, -⟩
  · exact ⟨a, ℓ.context, b, d, by rw [hℓ], hbal, hbal'⟩
  · exact absurd hls hne

theorem system_call_answered_first : ∃ a c b d, sampleTrace.take 17 =
    a ++ .preempts 0x2000 .call c :: (b ++ .finishes 0 :: d) ∧ Balanced b ∧ Balanced d := by
  have hr : Run (machine sampleLayout sampleBoot)
      (sampleTrace.take 17 ++ .answers 0x2000 0 :: sampleTrace.drop 18) machine₁₉ := sample_run
  exact system_call_answered sampleBoot_booted hr

/-- The same for a system call of the kernel. -/
theorem kernel_call_answered {v : Nat} (hb : Booted k m₀)
    (hr : Run (machine k m₀) (l₁ ++ .replies v :: l₂) m) :
    ∃ a c b d, l₁ = a ++ .nests .call c :: (b ++ .finishes v :: d) ∧ Balanced b ∧
      Balanced d := by
  obtain ⟨ℓ, ℓ', ls, hlev, hℓ, hres⟩ := run_allowed hb hr
  obtain ⟨a, e, b, d, rfl, hbal, hbal', hls, hin⟩ :=
    result_finished (prefix_allowed hb hr) hlev hres
  rcases hin with ⟨hnil, -⟩ | ⟨-, rfl⟩
  · rw [hls] at hnil
    cases hnil
  · exact ⟨a, ℓ.context, b, d, by rw [hℓ], hbal, hbal'⟩

/-! ## Return addresses -/

/-- Where `save` returns to the macro, the entry goes through. -/
theorem entry_some {irq : Fin 16}
    (h : (callSave k (k.code (.hwint irq .saved)) m.gate).cpu.eip =
      k.code (.hwint irq .saved)) : (hwintEntry k irq m).isSome := by
  rw [hwintEntry, if_pos h]
  rfl

/-- The same for `sys_call`. -/
theorem call_some (h : (callSave k (k.code (.sysCall .saved)) m.gate).cpu.eip =
    k.code (.sysCall .saved)) : (sysCallEntry k m).isSome := by
  rw [sysCallEntry, if_pos h]
  rfl

/-- **NO RETURN ADDRESS IS LOST**: an entry always reaches its handler, from the
    kernel where the stack has room, and the code of `kernel.asm` can always go
    on. -/
theorem never_astray (hb : Booted k m₀) (hr : Run (machine k m₀) l m) :
    (Outer m.cpu.cs → (∀ irq, (hwintEntry k irq m).isSome) ∧ (sysCallEntry k m).isSome) ∧
    (¬ Outer m.cpu.cs →
      (k.stackSpace + 68 ≤ m.cpu.esp →
        (∀ irq, (hwintEntry k irq m).isSome) ∧ (sysCallEntry k m).isSome) ∧
      (Compiled k m.cpu.eip ∧ m.calls ≠ [] ∨
        ∃ p, m.cpu.eip = k.code p ∧ (exec k p m).isSome)) := by
  have hi := run_inv hb hr
  constructor
  · intro ho
    obtain ⟨p, hp⟩ := hi.current
    exact ⟨fun irq => entry_some (process_entered hi ho hp).1.eip,
      call_some (process_entered hi ho hp).1.eip⟩
  · intro ho
    refine ⟨fun hroom => ⟨fun irq => entry_some (kernel_entered hi ho (by omega)).1.eip,
      call_some (kernel_entered hi ho (by omega)).1.eip⟩, ?_⟩
    obtain ⟨ℓ, ls, e, fs, gs, ht⟩ := top_of_inv hi ho
    have hcalls : ∀ f, fs = [f] → m.calls ≠ [] := by
      rintro f rfl
      rw [ht.calls]
      exact List.cons_ne_nil _ _
    cases ht.body with
    | irqPush _ hat => exact .inr ⟨_, hat, rfl⟩
    | irqCall _ hat => exact .inr ⟨_, hat, rfl⟩
    | irqHandler _ hin => exact .inl ⟨hin, hcalls _ rfl⟩
    | irqPop _ hat => exact .inr ⟨_, hat, rfl⟩
    | irqCli hℓ hat hesp => exact .inr ⟨_, hat, leave_some (leaving_irq ht hℓ hesp)⟩
    | @prepares p ws _ hp hcur hat =>
        refine .inr ⟨_, hat, ?_⟩
        cases p <;> cases hp <;> rfl
    | sysHandler _ hin => exact .inl ⟨hin, hcalls _ rfl⟩
    | sysAdd _ hat => exact .inr ⟨_, hat, rfl⟩
    | sysPop _ hat => exact .inr ⟨_, hat, rfl⟩
    | sysStore _ hat => exact .inr ⟨_, hat, rfl⟩
    | sysCli hℓ hat hesp => exact .inr ⟨_, hat, leave_some (leaving_call ht hℓ hesp)⟩

theorem never_astray_first : (hwintEntry sampleLayout 0 machine₁₉).isSome :=
  ((never_astray sampleBoot_booted sample_run).1 (by decide +kernel)).1 0

end KosResumption
