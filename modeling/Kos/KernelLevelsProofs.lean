import Kos.ContextSwitchProofs

/-! # The levels of the kernel stack

    The stack of the kernel holds one handler above the other.  `Body` says
    where a handler stands, between the cell of its way out and its stack
    pointer; `Chain` is the whole stack: each handler, the frame of what it has
    interrupted, and the masks it has changed.

    * a chain depends on the cells from the stack pointer up (`chain_congr`), so
      an entry stands on top of it, and one step of the innermost handler leaves
      the others (`chain_moves`);
    * the lines of a chain differ, for each of them is masked (`chain_nodup`);
    * each level takes 68 bytes of the stack at least, so there are at most 30
      (`chain_length`). -/

namespace KosKernelLevels

open DescendingStack KosKernel KosKernelEntry KosContextSwitch

/-! ## One handler -/

/-- What `sys_call` has pushed at a place before the call, when the frame that
    `save` has made is at `b`. -/
def pushed (r : Regs) (b q : Nat) : SysCallPoint → Option (List Nat)
  | .pushEsi => some []
  | .pushProc => some [b]
  | .pushEdx => some [q, b]
  | .pushEcx => some [r.edx, q, b]
  | .pushEbx => some [r.ecx, r.edx, q, b]
  | .call => some [r.ebx, r.ecx, r.edx, q, b]
  | _ => none

variable (k : Layout) (cur : Nat) (mem : Nat → Nat)

/-- A handler with the registers `r`, its way out at `e`, the frame that `save`
    has made at `b`, and the function in C that it has called, if that is under
    way. -/
inductive Body (r : Regs) (e b : Nat) (ℓ : Level) : List Call → Prop where
  | irqPush {irq : Fin 16} (hℓ : ℓ.entry = .irq irq)
      (hat : r.eip = k.code (.hwint irq .push)) (hesp : r.esp = e) : Body r e b ℓ []
  | irqCall {irq : Fin 16} (hℓ : ℓ.entry = .irq irq)
      (hat : r.eip = k.code (.hwint irq .call)) (hesp : r.esp + 4 = e)
      (harg : mem r.esp = irq.val) : Body r e b ℓ []
  | irqHandler {irq : Fin 16} {t : Nat} (hℓ : ℓ.entry = .irq irq)
      (hin : Compiled k r.eip) (hlow : k.stackSpace ≤ r.esp) (hesp : r.esp ≤ t)
      (ht : t + 8 = e) (hret : mem t = k.code (.hwint irq .pop)) :
      Body r e b ℓ [⟨t, 1⟩]
  | irqPop {irq : Fin 16} (hℓ : ℓ.entry = .irq irq)
      (hat : r.eip = k.code (.hwint irq .pop)) (hesp : r.esp + 4 = e) :
      Body r e b ℓ []
  | irqCli {irq : Fin 16} (hℓ : ℓ.entry = .irq irq)
      (hat : r.eip = k.code (.hwint irq .cli)) (hesp : r.esp = e) : Body r e b ℓ []
  | prepares {p : SysCallPoint} {ws : List Nat} (hℓ : ℓ.entry = .call)
      (hp : pushed ℓ.context.regs b ℓ.caller p = some ws) (hcur : cur = ℓ.caller)
      (hat : r.eip = k.code (.sysCall p)) (hesp : r.esp + 4 * ws.length = e)
      (hws : Holds mem r.esp ws) (hesi : r.esi = b)
      (hn : ℓ.context.regs.eax < NR_SYS_CALL) (heax : r.eax = ℓ.context.regs.eax)
      (hebx : r.ebx = ℓ.context.regs.ebx) (hecx : r.ecx = ℓ.context.regs.ecx)
      (hedx : r.edx = ℓ.context.regs.edx) : Body r e b ℓ []
  | sysHandler {t : Nat} (hℓ : ℓ.entry = .call)
      (hin : Compiled k r.eip) (hlow : k.stackSpace ≤ r.esp) (hesp : r.esp ≤ t)
      (ht : t + 24 = e) (hret : mem t = k.code (.sysCall .add))
      (hb : mem (t + 20) = b) : Body r e b ℓ [⟨t, 4⟩]
  | sysAdd (hℓ : ℓ.entry = .call)
      (hat : r.eip = k.code (.sysCall .add)) (hesp : r.esp + 20 = e)
      (hb : mem (r.esp + 16) = b) (hres : ℓ.result = some r.eax) : Body r e b ℓ []
  | sysPop (hℓ : ℓ.entry = .call)
      (hat : r.eip = k.code (.sysCall .popEsi)) (hesp : r.esp + 4 = e)
      (hb : mem r.esp = b) (hres : ℓ.result = some r.eax) : Body r e b ℓ []
  | sysStore (hℓ : ℓ.entry = .call)
      (hat : r.eip = k.code (.sysCall .store)) (hesp : r.esp = e)
      (hb : r.esi = b) (hres : ℓ.result = some r.eax) : Body r e b ℓ []
  | sysCli (hℓ : ℓ.entry = .call)
      (hat : r.eip = k.code (.sysCall .cli)) (hesp : r.esp = e) : Body r e b ℓ []

/-- Where `save` has left the registers: in the entry of the process, or above
    the cell of the way out. -/
def frameAt (e : Nat) (ℓ : Level) : List Level → Nat
  | [] => ℓ.caller
  | _ :: _ => e + 4

/-- The cell of the way out, with the frame above it that the handler has left
    of a lower one.  A system call of the kernel comes from a function in C. -/
def WayOut (e : Nat) (ℓ : Level) : List Level → Prop
  | [] => e + 4 = k.stackTop ∧ mem e = k.code .switchToUserMode
  | _ :: _ => mem e = k.code .switchToUserModeReenter ∧
      { readFrame mem (e + 4) with esp := e + 68, ss := SELECTOR_KERNEL_DS } =
        ℓ.back.regs ∧ (ℓ.entry = .call → Compiled k ℓ.context.regs.eip)

/-- What a handler has changed of the masks. -/
def Masks (ℓ : Level) (c : Context) : Prop :=
  c.ldtr = ℓ.context.ldtr ∧
    match ℓ.entry with
    | .irq irq => ¬ LineOff ℓ.context irq ∧
        c.maskM = (setLine irq ℓ.context).maskM ∧
        c.maskS = (setLine irq ℓ.context).maskS
    | .call => c.maskM = ℓ.context.maskM ∧ c.maskS = ℓ.context.maskS

/-- The handlers under way, above a process. -/
inductive Chain : Context → List Level → List Call → Prop where
  | process {c : Context} (ho : Outer c.regs.cs) : Chain c [] []
  | level {c : Context} {ℓ : Level} {ls : List Level} {e : Nat} {fs gs : List Call}
      (hcs : c.regs.cs = SELECTOR_KERNEL_CS) (hss : c.regs.ss = SELECTOR_KERNEL_DS)
      (hlow : k.stackSpace + ℓ.entry.room ≤ e)
      (hbody : Body k cur mem c.regs e (frameAt e ℓ ls) ℓ fs)
      (hout : WayOut k mem e ℓ ls) (hmask : Masks ℓ c)
      (hrest : Chain ℓ.back ls gs) :
      Chain c (ℓ :: ls) (fs ++ gs)

/-! ## What a chain depends on -/

section Congruence

variable {k cur mem} {mem' : Nat → Nat} {r : Regs} {e b : Nat} {c : Context} {ℓ : Level}
  {ls : List Level} {fs : List Call}

theorem body_esp (h : Body k cur mem r e b ℓ fs) : r.esp ≤ e := by
  cases h <;> omega

/-- The cells of a handler. -/
theorem body_congr (hmem : ∀ x, r.esp ≤ x → x < e → mem' x = mem x)
    (h : Body k cur mem r e b ℓ fs) : Body k cur mem' r e b ℓ fs := by
  cases h with
  | irqPush hℓ hat hesp => exact .irqPush hℓ hat hesp
  | irqCall hℓ hat hesp harg =>
      exact .irqCall hℓ hat hesp ((hmem _ (Nat.le_refl _) (by omega)).trans harg)
  | irqHandler hℓ hin hlow hesp ht hret =>
      exact .irqHandler hℓ hin hlow hesp ht ((hmem _ hesp (by omega)).trans hret)
  | irqPop hℓ hat hesp => exact .irqPop hℓ hat hesp
  | irqCli hℓ hat hesp => exact .irqCli hℓ hat hesp
  | prepares hℓ hp hcur hat hesp hws hesi hn heax hebx hecx hedx =>
      exact .prepares hℓ hp hcur hat hesp
        (holds_congr (fun x h₁ h₂ => hmem x h₁ (by omega)) hws)
        hesi hn heax hebx hecx hedx
  | sysHandler hℓ hin hlow hesp ht hret hb =>
      exact .sysHandler hℓ hin hlow hesp ht ((hmem _ hesp (by omega)).trans hret)
        ((hmem _ (by omega) (by omega)).trans hb)
  | sysAdd hℓ hat hesp hb hres =>
      exact .sysAdd hℓ hat hesp ((hmem _ (by omega) (by omega)).trans hb) hres
  | sysPop hℓ hat hesp hb hres =>
      exact .sysPop hℓ hat hesp ((hmem _ (Nat.le_refl _) (by omega)).trans hb) hres
  | sysStore hℓ hat hesp hb hres => exact .sysStore hℓ hat hesp hb hres
  | sysCli hℓ hat hesp => exact .sysCli hℓ hat hesp

/-- The words of a frame below those of the stack. -/
theorem innerFrame_congr {b s t : Nat}
    (h : ∀ x, b ≤ x → x < b + 64 → mem' x = mem x) :
    { readFrame mem' b with esp := s, ss := t } =
      { readFrame mem b with esp := s, ss := t } := by
  simp only [readFrame, EAXREG]
  congr 1 <;> exact h _ (by omega) (by omega)

theorem wayOut_inner (h : WayOut k mem e ℓ ls) (hne : ls ≠ []) :
    ℓ.back.regs.esp = e + 68 := by
  cases ls with
  | nil => exact absurd rfl hne
  | cons _ _ => exact (congrArg Regs.esp h.2.1).symm

/-- Every handler stays below the top of the stack, and below those that it has
    interrupted. -/
theorem chain_room (hout : WayOut k mem e ℓ ls)
    (hrest : Chain k cur mem ℓ.back ls fs) : e + 4 + 68 * ls.length ≤ k.stackTop := by
  induction ls generalizing e ℓ fs with
  | nil => exact Nat.le_of_eq hout.1
  | cons ℓ' ls ih =>
      have hesp := wayOut_inner hout (List.cons_ne_nil _ _)
      rw [List.length_cons]
      cases hrest with
      | level _ _ _ hbody hout' _ hrest' =>
          have hle := body_esp hbody
          have htop := ih hout' hrest'
          omega

theorem wayOut_congr (hmem : ∀ x, e ≤ x → x < k.stackTop → mem' x = mem x)
    (htop : ls ≠ [] → e + 68 ≤ k.stackTop) (h : WayOut k mem e ℓ ls) :
    WayOut k mem' e ℓ ls := by
  cases ls with
  | nil =>
      have hlt := h.1
      exact ⟨h.1, (hmem e (Nat.le_refl e) (by omega)).trans h.2⟩
  | cons ℓ' ls =>
      have hlt := htop (List.cons_ne_nil _ _)
      refine ⟨(hmem e (Nat.le_refl e) (by omega)).trans h.1, ?_, h.2.2⟩
      rw [innerFrame_congr fun x h₁ h₂ => hmem x (by omega) (by omega)]
      exact h.2.1

/-- A lower handler starts above the frame that is left of it. -/
theorem chain_below (hout : WayOut k mem e ℓ ls)
    (hrest : Chain k cur mem ℓ.back ls fs) (hne : ls ≠ []) :
    e + 72 ≤ k.stackTop := by
  have htop := chain_room hout hrest
  have hlen := List.length_pos_of_ne_nil hne
  omega

/-- **A CHAIN** depends on the cells from the stack pointer up. -/
theorem chain_congr (hmem : ∀ x, c.regs.esp ≤ x → x < k.stackTop → mem' x = mem x)
    (h : Chain k cur mem c ls fs) : Chain k cur mem' c ls fs := by
  induction h with
  | process ho => exact .process ho
  | @level c ℓ ls e fs gs hcs hss hlow hbody hout hmask hrest ih =>
      have hle := body_esp hbody
      have htop := chain_room hout hrest
      refine .level hcs hss hlow (body_congr (fun x h₁ h₂ => hmem x h₁ (by omega)) hbody)
        (wayOut_congr (fun x h₁ h₂ => hmem x (by omega) h₂) ?_ hout) hmask ?_
      · intro hne
        have := chain_below hout hrest hne
        omega
      · cases ls with
        | nil =>
            cases hrest with
            | process ho => exact .process ho
        | cons ℓ' ls =>
            have hesp := wayOut_inner hout (List.cons_ne_nil _ _)
            exact ih fun x h₁ h₂ => hmem x (by omega) h₂

/-- The levels under the innermost one stay. -/
theorem chain_rest {cur' : Nat} (hout : WayOut k mem e ℓ ls)
    (hrest : Chain k cur mem ℓ.back ls fs)
    (hmem : ∀ x, e ≤ x → x < k.stackTop → mem' x = mem x)
    (hsame : ls ≠ [] → cur' = cur) :
    Chain k cur' mem' ℓ.back ls fs := by
  cases ls with
  | nil =>
      cases hrest with
      | process ho => exact .process ho
  | cons ℓ' ls =>
      have hesp := wayOut_inner hout (List.cons_ne_nil _ _)
      rw [hsame (List.cons_ne_nil _ _)]
      exact chain_congr (fun x h₁ h₂ => hmem x (by omega) h₂) hrest

/-- The function in C of the innermost handler returns. -/
theorem chain_finishes {cur' : Nat} {v : Option Nat} {c' : Context} {fs' : List Call}
    (hlow : k.stackSpace + ℓ.entry.room ≤ e) (hout : WayOut k mem e ℓ ls)
    (hrest : Chain k cur mem ℓ.back ls fs)
    (hmem : ∀ x, e ≤ x → x < k.stackTop → mem' x = mem x)
    (hsame : ls ≠ [] → cur' = cur)
    (hcs : c'.regs.cs = SELECTOR_KERNEL_CS) (hss : c'.regs.ss = SELECTOR_KERNEL_DS)
    (hbody : Body k cur' mem' c'.regs e (frameAt e ℓ ls) { ℓ with result := v } fs')
    (hmask : Masks ℓ c') :
    Chain k cur' mem' c' ({ ℓ with result := v } :: ls) (fs' ++ fs) := by
  have hout' : WayOut k mem e { ℓ with result := v } ls := by
    cases ls <;> exact hout
  have hframe : frameAt e { ℓ with result := v } ls = frameAt e ℓ ls := by
    cases ls <;> rfl
  refine .level hcs hss hlow (hframe ▸ hbody) (wayOut_congr hmem ?_ hout') hmask
    (chain_rest hout' hrest hmem hsame)
  intro hne
  have := chain_below hout hrest hne
  omega

/-- **ONE STEP OF THE INNERMOST HANDLER** leaves the chain. -/
theorem chain_moves {cur' : Nat} {c' : Context} {fs' : List Call}
    (hlow : k.stackSpace + ℓ.entry.room ≤ e) (hout : WayOut k mem e ℓ ls)
    (hrest : Chain k cur mem ℓ.back ls fs)
    (hmem : ∀ x, e ≤ x → x < k.stackTop → mem' x = mem x)
    (hsame : ls ≠ [] → cur' = cur)
    (hcs : c'.regs.cs = SELECTOR_KERNEL_CS) (hss : c'.regs.ss = SELECTOR_KERNEL_DS)
    (hbody : Body k cur' mem' c'.regs e (frameAt e ℓ ls) ℓ fs') (hmask : Masks ℓ c') :
    Chain k cur' mem' c' (ℓ :: ls) (fs' ++ fs) :=
  chain_finishes hlow hout hrest hmem hsame hcs hss hbody hmask

/-- Code in C goes on with another `eax`. -/
theorem body_eax {v : Nat} (hin : Compiled k r.eip) (h : Body k cur mem r e b ℓ fs) :
    Body k cur mem { r with eax := v } e b ℓ fs := by
  cases h with
  | irqPush _ hat => exact absurd hat (hin _)
  | irqCall _ hat => exact absurd hat (hin _)
  | irqPop _ hat => exact absurd hat (hin _)
  | irqCli _ hat => exact absurd hat (hin _)
  | prepares _ _ _ hat => exact absurd hat (hin _)
  | sysAdd _ hat => exact absurd hat (hin _)
  | sysPop _ hat => exact absurd hat (hin _)
  | sysStore _ hat => exact absurd hat (hin _)
  | sysCli _ hat => exact absurd hat (hin _)
  | irqHandler hℓ _ hlow hesp ht hret => exact .irqHandler hℓ hin hlow hesp ht hret
  | sysHandler hℓ _ hlow hesp ht hret hb => exact .sysHandler hℓ hin hlow hesp ht hret hb

/-- So does a chain whose innermost code is in C. -/
theorem chain_eax {v : Nat} (hin : Compiled k c.regs.eip) (h : Chain k cur mem c ls fs) :
    Chain k cur mem { c with regs := { c.regs with eax := v } } ls fs := by
  cases h with
  | process ho => exact .process ho
  | level hcs hss hlow hbody hout hmask hrest =>
      exact .level hcs hss hlow (body_eax hin hbody) hout hmask hrest

/-! ## The lines under way -/

/-- The line of a level is masked, and those masked before. -/
theorem masks_off {irq : Fin 16} (hmask : Masks ℓ c)
    (h : ℓ.entry = .irq irq ∨ LineOff ℓ.context irq) : LineOff c irq := by
  obtain ⟨-, hmask⟩ := hmask
  cases hentry : ℓ.entry with
  | irq j =>
      rw [hentry] at hmask h
      obtain ⟨-, hM, hS⟩ := hmask
      have hset : LineOff (setLine j ℓ.context) irq := by
        rcases h with h | h
        · cases h
          exact setLine_off
        · exact off_setLine h
      rw [LineOff] at hset ⊢
      rwa [hM, hS]
  | call =>
      rw [hentry] at hmask h
      rcases h with h | h
      · cases h
      · rw [LineOff] at h ⊢
        rwa [hmask.1, hmask.2]

/-- The lines of a chain are masked. -/
theorem chain_masked {irq : Fin 16} (h : Chain k cur mem c ls fs)
    (hirq : Entry.irq irq ∈ ls.map Level.entry) : LineOff c irq := by
  induction h with
  | process => cases hirq
  | level _ _ _ _ _ hmask _ ih =>
      rw [List.map_cons, List.mem_cons] at hirq
      exact masks_off hmask (hirq.imp Eq.symm ih)

/-- Entries are lines but for one. -/
def Entry.line : Entry → Option (Fin 16)
  | .irq irq => some irq
  | .call => none

/-- The lines that have a handler under way. -/
def lines (es : List Entry) : List (Fin 16) := es.filterMap Entry.line

theorem lines_irq {es : List Entry} {irq : Fin 16} :
    lines (.irq irq :: es) = irq :: lines es := rfl

theorem lines_call {es : List Entry} : lines (.call :: es) = lines es := rfl

/-- The lines of some entries. -/
theorem mem_lines {es : List Entry} {irq : Fin 16} : irq ∈ lines es ↔ Entry.irq irq ∈ es := by
  rw [lines, List.mem_filterMap]
  constructor
  · rintro ⟨ent, hent, hline⟩
    cases ent with
    | irq j =>
        cases hline
        exact hent
    | call => cases hline
  · intro h
    exact ⟨_, h, rfl⟩

/-- **NO LINE TWICE**. -/
theorem chain_nodup (h : Chain k cur mem c ls fs) : (lines (ls.map Level.entry)).Nodup := by
  induction h with
  | process => exact List.nodup_nil
  | @level c ℓ ls e fs gs _ _ _ _ _ hmask hrest ih =>
      rw [List.map_cons]
      cases hentry : ℓ.entry with
      | irq irq =>
          rw [lines_irq, List.nodup_cons]
          refine ⟨?_, ih⟩
          intro hmem
          have hoff := hmask.2
          rw [hentry] at hoff
          have hback : LineOff ℓ.back irq := chain_masked hrest (mem_lines.mp hmem)
          exact hoff.1 hback
      | call =>
          rw [lines_call]
          exact ih

/-- The stack has room for 30 levels. -/
theorem chain_length (h : Chain k cur mem c ls fs) : ls.length ≤ 30 := by
  cases h with
  | process => exact Nat.zero_le _
  | @level _ ℓ ls e _ _ _ _ hlow _ hout _ hrest =>
      have htop := chain_room hout hrest
      have hroom : 8 ≤ ℓ.entry.room := by
        cases ℓ.entry <;> exact Nat.le_of_ble_eq_true rfl
      rw [Layout.stackTop, STACK_SPACE] at htop
      rw [List.length_cons]
      omega

end Congruence

end KosKernelLevels
