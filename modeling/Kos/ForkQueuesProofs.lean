import Kos.ForkExecProofs
import Kos.SendQueueProofs

/-! # Fork and exit among the sending queues

    `do_fork` copies a whole entry, with the head of the parent's queue and its
    pending interrupt; `proc_cleanup` frees a slot without a look at who waits
    for it.  The machine is that of `KosForkExec`, with the receiver or the
    source of each call in its label.

    * A parent with a sender waiting hands the head of its queue on to the
      child: one process in two queues (`fork_shares_queue`);
    * if PM forks parents without senders and interrupts, frees slots nobody
      waits for, and no call names a free slot, the state stays well formed
      (`ipc_wellFormed`). -/

namespace KosForkQueues

open FlatMemory KosKernel LinkChain GuardedRun
open KosProcessManager (findFree findFree_eq_some childBase childProc
  setWaiting setHanging setFree setParent view_of_rest)
open KosIpc hiding Event Step
open KosForkExec hiding Step
open KosSendQueue (behind taken qLink_behind sending_behind target_behind
  qLink_taken sending_taken target_taken)

/-! ## Calls and whom they name -/

/-- An event with the processes it names. -/
inductive Label where
  | send (q r : Int)
  | rcv (q src : Int)
  | ask (q : Int) (call : Call)
  | listen (q : Int)
  | hwInt (p : Int)
  | outside
  | pm

/-- The event of the system it stands for. -/
def Label.event : Label → Event
  | .send q _ | .rcv q _ => .call q
  | .ask q call => .ask q call
  | .listen q => .listen q
  | .hwInt p => .hwInt p
  | .outside => .outside
  | .pm => .pm

/-- A step of `KosForkExec`, with the receiver or the source of its call. -/
inductive Step : Sys → Label → Sys → Prop where
  | send {x : Choice} {s s' : Sys} {q r : Int} (hq : InTable q)
      (hr : InTable r) (hpm : q ≠ TASK_PM) (huser : s.user q = .running)
      (hrun : (s.table q).procState = RUNNABLE) (hcall : s.send x q r = .ok s') :
      Step s (.send q r) s'
  | rcv {x : Choice} {s s' : Sys} {q src : Int} (hq : InTable q)
      (hsrc : IsSource src) (hpm : q ≠ TASK_PM) (huser : s.user q = .running)
      (hrun : (s.table q).procState = RUNNABLE) (hcall : s.rcv x q src = .ok s') :
      Step s (.rcv q src) s'
  | other {s s' : Sys} {e : Label} (hsend : ∀ q r, e ≠ .send q r)
      (hrcv : ∀ q src, e ≠ .rcv q src) (hstep : KosForkExec.Step s e.event s') :
      Step s e s'

/-- The labels lose no step and add none. -/
theorem step_iff {s s' : Sys} {e : Event} :
    KosForkExec.Step s e s' ↔ ∃ l : Label, l.event = e ∧ Step s l s' := by
  constructor
  · intro h
    cases h with
    | send hq hr hpm huser hrun hcall =>
        exact ⟨.send _ _, rfl, .send hq hr hpm huser hrun hcall⟩
    | rcv hq hsrc hpm huser hrun hcall =>
        exact ⟨.rcv _ _, rfl, .rcv hq hsrc hpm huser hrun hcall⟩
    | ask hq htask hforked huser hrun hcall =>
        exact ⟨.ask _ _, rfl, .other (by simp) (by simp)
          (.ask hq htask hforked huser hrun hcall)⟩
    | listen huser hrun hcall =>
        exact ⟨.listen _, rfl, .other (by simp) (by simp)
          (.listen huser hrun hcall)⟩
    | hwInt hp hpm hcall =>
        exact ⟨.hwInt _, rfl, .other (by simp) (by simp)
          (.hwInt hp hpm hcall)⟩
    | outside hin =>
        exact ⟨.outside, rfl, .other (by simp) (by simp) (.outside hin)⟩
    | pm hrun hcall =>
        exact ⟨.pm, rfl, .other (by simp) (by simp) (.pm hrun hcall)⟩
  · rintro ⟨l, rfl, h⟩
    cases h with
    | send hq hr hpm huser hrun hcall =>
        exact .send hq hr hpm huser hrun hcall
    | rcv hq hsrc hpm huser hrun hcall =>
        exact .rcv hq hsrc hpm huser hrun hcall
    | other _ _ hstep => exact hstep

/-- Whom the next call names: its receiver or its source. -/
def named (s : Sys) : Label → Option Int
  | .send _ r => some r
  | .rcv _ src => some src
  | .ask _ _ | .listen _ => some TASK_PM
  | .pm =>
      match s.pc with
      | .tell _ _ | .hear _ _ => some TASK_FS
      | .birth _ childPid => some childPid
      | .cleanup pid _ => some (s.table pid).pParent
      | .reply src => some src
      | _ => none
  | _ => none

/-! ## Well-formed states -/

/-- `q` is SENDING to `r`, or RECEIVING from nobody else. -/
def WaitsFor (T : Table) (q r : Int) : Prop :=
  ((T q).procState.sending = true ∧ (T q).pidSendingto = r) ∨
    ((T q).procState.receiving = true ∧ (T q).pidRecvingfrom = r)

/-- `x` is in the sending queue of `r`; the link of a process that is SENDING
    belongs to the queue it is in. -/
def InQueue (T : Table) (x r : Int) : Prop :=
  (T r).procState.sending = false ∧
    ∃ l, Links (qLink T) (qLink T r) l ∧ x ∈ l

/-- The queues of senders are in order. -/
structure WellFormed (T : Table) : Prop where
  /-- no process is in two queues -/
  queue : ∀ x r r', InTable r → InTable r' → InQueue T x r →
    InQueue T x r' → r = r'
  /-- nobody waits for a free slot -/
  live : ∀ q r, InTable q → InTable r → WaitsFor T q r →
    (T r).procState ≠ FREE_SLOT

/-- A child that `do_fork` has just made. -/
def NewChild (s : Sys) (e : Label) (s' : Sys) (c : Int) : Prop :=
  e = .pm ∧ s.pc = .dispatch ∧ ∃ src, s'.pc = .tell src (.fork c)

/-- The child has no senders and no interrupt. -/
def Clean (T : Table) (c : Int) : Prop :=
  (T c).qPendingProc = none ∧ (T c).hasIntMsg = false

/-! ## The condition on a step -/

/-- The caller and the source of a RECEIVE. -/
def sought (s : Sys) : Label → Option (Int × Int)
  | .rcv q src => some (q, src)
  | .listen q => some (q, TASK_PM)
  | .pm =>
      match s.pc with
      | .receive => some (TASK_PM, ANY)
      | .hear _ _ => some (TASK_PM, TASK_FS)
      | _ => none
  | _ => none

/-- The search of `kernel_msg_rcv` does not run past the end of the queue. -/
def FindsSender (T : Table) (r src : Int) : Prop :=
  src ≠ ANY → (T src).procState.sending = true → (T src).pidSendingto = r →
    ∃ l, Links (qLink T) (qLink T r) l ∧ src ∈ l

/-- The condition on a step. -/
structure Orderly (s : Sys) (e : Label) : Prop where
  /-- no call names a free slot -/
  names : ∀ r, named s e = some r → InTable r →
    (s.table r).procState.freeSlot = false
  /-- a sender that a RECEIVE names is in the caller's queue -/
  finds : ∀ r src, sought s e = some (r, src) → FindsSender s.table r src
  /-- PM forks a process without senders and interrupt -/
  fork : ∀ p, e = .pm → s.pc = .dispatch → s.pmMsg = some (p, .fork) →
    Clean s.table p
  /-- PM frees a slot nobody waits for, of a process that is not SENDING -/
  exit : ∀ c k, e = .pm → s.pc = .cleaned c k →
    (s.table c).procState.sending = false ∧
      ∀ q, InTable q → ¬ WaitsFor s.table q c

/-! ## The invariant -/

/-- Every link is the only one to its cell, which belongs to a process that is
    SENDING. -/
structure Inv (T : Table) : Prop where
  one : ∀ a b x, InTable a → InTable b → qLink T a = some x →
    qLink T b = some x → a = b
  linked : ∀ a x, InTable a → qLink T a = some x →
    InTable x ∧ (T x).procState.sending = true
  live : ∀ q r, InTable q → InTable r → WaitsFor T q r →
    (T r).procState.freeSlot = false

/-- The invariant gives the queues in order. -/
theorem wellFormed_of_inv {T : Table} (h : Inv T) : WellFormed T := by
  refine ⟨?_, ?_⟩
  · rintro x r r' hr hr' ⟨hrq, l, hl, hx⟩ ⟨hrq', l', hl', hx'⟩
    have hP : ∀ a y, InTable a → qLink T a = some y → InTable y :=
      fun a y ha hy => (h.linked a y ha hy).1
    -- the start of a queue is not SENDING, so it is in no other queue
    have hnot : ∀ {a b : Int} {k : List Int}, InTable a →
        Links (qLink T) (qLink T a) k → (T b).procState.sending = false →
        b ∉ k := by
      intro a b k ha hk hb hmem
      have hsnd : ∀ y ∈ k, (T y).procState.sending = true := by
        intro y hy
        rcases links_pred hk hy with hstart | ⟨z, hz, hnext⟩
        · exact (h.linked a y ha hstart).2
        · exact (h.linked z y (links_forall hP ha hk z hz) hnext).2
      exact absurd ((hsnd b hmem).symm.trans hb) (by decide)
    rcases links_meet hP h.one hr' hl' hx' hr hl hx with heq | hmem | hmem
    · exact heq
    · exact absurd hmem (hnot hr' hl' hrq)
    · exact absurd hmem (hnot hr hl hrq')
  · intro q r hq hr hwait hfree
    have hlive := h.live q r hq hr hwait
    rw [hfree] at hlive
    cases hlive

section Calls

variable {T T' : Table} {fuel : Nat} {p r src : Int} {m : Addr} {w : List Write}

/-- The same links, senders and free slots, and no new waits. -/
theorem inv_same (h : Inv T)
    (hlink : ∀ x, InTable x → qLink T' x = qLink T x)
    (hsend : ∀ x, InTable x →
      (T' x).procState.sending = (T x).procState.sending)
    (hfree : ∀ x, InTable x →
      (T' x).procState.freeSlot = (T x).procState.freeSlot)
    (hwait : ∀ q r, InTable q → InTable r → WaitsFor T' q r →
      WaitsFor T q r ∨ (T r).procState.freeSlot = false) : Inv T' := by
  refine ⟨fun a b x ha hb hax hbx => ?_, fun a x ha hax => ?_,
    fun q r hq hr hw => ?_⟩
  · rw [hlink a ha] at hax
    rw [hlink b hb] at hbx
    exact h.one a b x ha hb hax hbx
  · rw [hlink a ha] at hax
    obtain ⟨hx, hs⟩ := h.linked a x ha hax
    exact ⟨hx, (hsend x hx).trans hs⟩
  · rw [hfree r hr]
    rcases hwait q r hq hr hw with hold | hlive
    · exact h.live q r hq hr hold
    · exact hlive

/-- The entries outside the table do not matter. -/
theorem inv_outside (h : Inv T) (hin : ∀ y, InTable y → T' y = T y) :
    Inv T' := by
  refine inv_same h (fun y hy => ?_) (fun y hy => ?_) (fun y hy => ?_)
    fun q r hq _ hw => Or.inl ?_
  · rw [qLink, qLink, hin y hy]
  · rw [hin y hy]
  · rw [hin y hy]
  · rw [WaitsFor, hin q hq] at hw
    exact hw

/-- One entry changes, but not its link, its flags and what it sends to; it
    waits for nobody new. -/
theorem inv_upd (h : Inv T) (p : Int) {f : Proc → Proc}
    (hlink : (f (T p)).qPendingProc = (T p).qPendingProc)
    (hsend : (f (T p)).procState.sending = (T p).procState.sending)
    (hto : (f (T p)).pidSendingto = (T p).pidSendingto)
    (hfree : (f (T p)).procState.freeSlot = (T p).procState.freeSlot)
    (hrec : (f (T p)).procState.receiving = true →
      ((T p).procState.receiving = true ∧
        (f (T p)).pidRecvingfrom = (T p).pidRecvingfrom) ∨
      (InTable (f (T p)).pidRecvingfrom →
        (T (f (T p)).pidRecvingfrom).procState.freeSlot = false)) :
    Inv (T.upd p f) := by
  refine inv_same h (fun x _ => ?_) (fun x _ => ?_) (fun x _ => ?_)
    fun q r _ hr hw => ?_
  · by_cases hx : x = p
    · subst hx
      rw [qLink, upd_self, hlink, qLink]
    · rw [qLink, upd_of_ne T f hx, qLink]
  · by_cases hx : x = p
    · subst hx
      rw [upd_self, hsend]
    · rw [upd_of_ne T f hx]
  · by_cases hx : x = p
    · subst hx
      rw [upd_self, hfree]
    · rw [upd_of_ne T f hx]
  · by_cases hq : q = p
    · subst hq
      rw [WaitsFor, upd_self] at hw
      rcases hw with ⟨hs, ht⟩ | ⟨hre, hfrom⟩
      · exact Or.inl (Or.inl ⟨hsend ▸ hs, hto ▸ ht⟩)
      · rcases hrec hre with ⟨hold, heq⟩ | hlive
        · exact Or.inl (Or.inr ⟨hold, heq ▸ hfrom⟩)
        · rw [hfrom] at hlive
          exact Or.inr (hlive hr)
    · rw [WaitsFor, upd_of_ne T f hq] at hw
      exact Or.inl hw

/-- **A SENDER BLOCKS** on a receiver that is not free. -/
theorem inv_behind (h : Inv T) {t : Int} {l : List Int} (hp : InTable p)
    (hidle : (T p).procState.sending = false)
    (hr : InTable r → (T r).procState.freeSlot = false)
    (hl : Links (qLink T) (some r) (l ++ [t])) : Inv (behind T p r t m) := by
  have hunlinked : ∀ a, InTable a → qLink T a ≠ some p := by
    intro a ha hlink
    exact absurd ((h.linked a p ha hlink).2.symm.trans hidle) (by decide)
  have hlast : qLink T t = none := links_suffix hl
  -- the only new link is the one from the last sender to `p`
  have hnew : ∀ {a x : Int}, InTable a → qLink (behind T p r t m) a = some x →
      (a = t ∧ x = p) ∨ (a ≠ t ∧ a ≠ p ∧ qLink T a = some x) := by
    intro a x _ hax
    rw [qLink_behind] at hax
    by_cases hap : a = p
    · rw [if_pos hap] at hax
      cases hax
    · rw [if_neg hap] at hax
      by_cases hat : a = t
      · rw [if_pos hat] at hax
        exact Or.inl ⟨hat, (Option.some.inj hax).symm⟩
      · rw [if_neg hat] at hax
        exact Or.inr ⟨hat, hap, hax⟩
  refine ⟨fun a b x ha hb hax hbx => ?_, fun a x ha hax => ?_,
    fun q y hq hy hw => ?_⟩
  · rcases hnew ha hax with ⟨hat, hxp⟩ | ⟨-, -, hax'⟩
    · rcases hnew hb hbx with ⟨hbt, -⟩ | ⟨-, -, hbx'⟩
      · exact hat.trans hbt.symm
      · exact absurd (hxp ▸ hbx') (hunlinked b hb)
    · rcases hnew hb hbx with ⟨-, hxp⟩ | ⟨-, -, hbx'⟩
      · exact absurd (hxp ▸ hax') (hunlinked a ha)
      · exact h.one a b x ha hb hax' hbx'
  · rw [sending_behind]
    rcases hnew ha hax with ⟨-, hxp⟩ | ⟨-, -, hax'⟩
    · exact ⟨hxp ▸ hp, if_pos hxp⟩
    · obtain ⟨hx, hs⟩ := h.linked a x ha hax'
      refine ⟨hx, ?_⟩
      rw [hs]
      exact ite_self _
  · have hfree : (behind T p r t m y).procState.freeSlot =
        (T y).procState.freeSlot := by
      have hrest : rest (behind T p r t m y) = rest (T y) := by
        rw [behind, rest_setLink, rest_setLink]
        exact rest_upd (f := blockedSending r m) (fun _ => rfl) y
      exact (flags_of_view (view_of_rest hrest)).1
    rw [hfree]
    by_cases hqp : q = p
    · subst hqp
      rcases hw with ⟨-, ht⟩ | ⟨hre, hfrom⟩
      · rw [target_behind, if_pos rfl] at ht
        subst ht
        exact hr hy
      · refine h.live q y hq hy (Or.inr ?_)
        rw [behind, setLink_procState, setLink_procState, upd_self] at hre
        rw [behind, setLink_frame, setLink_frame, upd_self] at hfrom
        exact ⟨hre, hfrom⟩
    · refine h.live q y hq hy ?_
      rcases hw with ⟨hs, ht⟩ | ⟨hre, hfrom⟩
      · rw [sending_behind, if_neg hqp] at hs
        rw [target_behind, if_neg hqp] at ht
        exact Or.inl ⟨hs, ht⟩
      · rw [behind, setLink_procState, setLink_procState, upd_of_ne T _ hqp]
          at hre
        rw [behind, setLink_frame, setLink_frame, upd_of_ne T _ hqp] at hfrom
        exact Or.inr ⟨hre, hfrom⟩

/-- **A SENDER IS TAKEN** from behind its predecessor. -/
theorem inv_taken (h : Inv T) {s x : Int} (hx : InTable x)
    (hxs : qLink T x = some s) : Inv (taken T s x) := by
  have hnew : ∀ {a y : Int}, InTable a → qLink (taken T s x) a = some y →
      a ≠ s ∧ ((a = x ∧ qLink T s = some y) ∨
        (a ≠ x ∧ qLink T a = some y)) := by
    intro a y _ hay
    rw [qLink_taken] at hay
    by_cases has : a = s
    · rw [if_pos has] at hay
      cases hay
    · rw [if_neg has] at hay
      by_cases hax : a = x
      · rw [if_pos hax] at hay
        exact ⟨has, Or.inl ⟨hax, hay⟩⟩
      · rw [if_neg hax] at hay
        exact ⟨has, Or.inr ⟨hax, hay⟩⟩
  have hs := (h.linked x s hx hxs).1
  refine ⟨fun a b y ha hb hay hby => ?_, fun a y ha hay => ?_,
    fun q y hq hy hw => ?_⟩
  · obtain ⟨has, ha'⟩ := hnew ha hay
    obtain ⟨hbs, hb'⟩ := hnew hb hby
    rcases ha' with ⟨hax, hsy⟩ | ⟨-, hay'⟩
    · rcases hb' with ⟨hbx, -⟩ | ⟨-, hby'⟩
      · exact hax.trans hbx.symm
      · exact absurd (h.one b s y hb hs hby' hsy) hbs
    · rcases hb' with ⟨-, hsy⟩ | ⟨-, hby'⟩
      · exact absurd (h.one a s y ha hs hay' hsy) has
      · exact h.one a b y ha hb hay' hby'
  · obtain ⟨has, ha'⟩ := hnew ha hay
    have hold : ∃ c, InTable c ∧ qLink T c = some y ∧ y ≠ s := by
      rcases ha' with ⟨hax, hsy⟩ | ⟨hax, hay'⟩
      · refine ⟨s, hs, hsy, fun hys => ?_⟩
        -- a cell linked to itself would have a second link to it
        rw [hys] at hsy
        exact has (hax.trans (h.one x s s hx hs hxs hsy))
      · refine ⟨a, ha, hay', fun hys => ?_⟩
        rw [hys] at hay'
        exact hax (h.one a x s ha hx hay' hxs)
    obtain ⟨c, hc, hcy, hys⟩ := hold
    obtain ⟨hy, hsnd⟩ := h.linked c y hc hcy
    rw [sending_taken, if_neg hys]
    exact ⟨hy, hsnd⟩
  · have hfree : (taken T s x y).procState.freeSlot =
        (T y).procState.freeSlot := by
      have hrest : rest (taken T s x y) = rest (T y) := by
        rw [taken, rest_upd (f := released) (fun _ => rfl), rest_setLink,
          rest_setLink]
      exact (flags_of_view (view_of_rest hrest)).1
    rw [hfree]
    refine h.live q y hq hy ?_
    rcases hw with ⟨hsnd, ht⟩ | ⟨hre, hfrom⟩
    · rw [sending_taken] at hsnd
      have hqs : q ≠ s := by
        intro heq
        rw [if_pos heq] at hsnd
        cases hsnd
      rw [if_neg hqs] at hsnd
      rw [target_taken T x hqs] at ht
      exact Or.inl ⟨hsnd, ht⟩
    · have hkeep : SameWait (taken T s x q) (T q) := by
        have h₁ := sameWait_setLink T x q (T s).qPendingProc
        have h₂ := sameWait_setLink (setLink T x (T s).qPendingProc) s q none
        have h₃ := sameWait_upd
          (T := setLink (setLink T x (T s).qPendingProc) s none) (p := s)
          (f := released) (fun _ => ⟨rfl, rfl⟩) q
        exact sameWait_trans h₃ (sameWait_trans h₂ h₁)
      rw [hkeep.1] at hre
      rw [hkeep.2] at hfrom
      exact Or.inr ⟨hre, hfrom⟩

/-- **SEND** to a receiver that is not free. -/
theorem inv_kernelMsgSend (h : Inv T) (hp : InTable p)
    (hidle : (T p).procState.sending = false)
    (hr : InTable r → (T r).procState.freeSlot = false)
    (hcall : kernelMsgSend fuel T p r m = .ok (T', w)) : Inv T' := by
  obtain ⟨-, -, hdir | hblk⟩ := kernelMsgSend_cases hcall
  · rw [hdir.table]
    refine inv_upd h r rfl rfl rfl rfl ?_
    intro hrec
    cases hrec
  · obtain ⟨t, l, hl, rfl⟩ := hblk.table
    exact inv_behind h hp hidle hr hl

/-- The cell that the search leaves is in front of the sender. -/
theorem redirected_eq {s x : Int} (h : Inv T) (hr : InTable r)
    (hfind : FindsSender T r src) (hf : RcvdFrom fuel T r src m s x T' w) :
    InTable x ∧ qLink T x = some s := by
  rcases hf.redirected with ⟨rfl, hhead⟩ | ⟨hhead, hsearch⟩
  · exact ⟨hr, hhead⟩
  · rcases hf.choice with ⟨-, hhead'⟩ | ⟨hany, rfl, -⟩
    · exact absurd hhead' hhead
    · have hsnd : (T src).procState.sending = true := by
        rw [hf.sender]
        rfl
      obtain ⟨l, hl, hmem⟩ := hfind hany hsnd hf.target
      obtain ⟨l₁, l₂, rfl, hx⟩ := searchQueue_of_links hl hmem hsearch
      rw [Option.or_none] at hx
      obtain ⟨l₀, rfl⟩ := List.getLast?_eq_some_iff.mp hx.symm
      have hP : ∀ a y, InTable a → qLink T a = some y → InTable y :=
        fun a y ha hy => (h.linked a y ha hy).1
      refine ⟨links_forall hP hr hl x (by simp), ?_⟩
      rw [List.append_assoc, List.singleton_append] at hl
      exact (links_suffix hl).1

/-- **RECEIVE** from a source that is not free. -/
theorem inv_kernelMsgRcv (h : Inv T) (hr : InTable r)
    (hsrc : InTable src → (T src).procState.freeSlot = false)
    (hfind : FindsSender T r src)
    (hcall : kernelMsgRcv fuel T r src m = .ok (T', w)) : Inv T' := by
  obtain ⟨-, hint | ⟨-, ⟨s, x, hf⟩ | hblk⟩⟩ := kernelMsgRcv_cases hcall
  · rw [hint.table]
    exact inv_upd h r rfl rfl rfl rfl fun hrec => Or.inl ⟨hrec, rfl⟩
  · obtain ⟨hx, hxs⟩ := redirected_eq h hr hfind hf
    rw [hf.table]
    exact inv_taken h hx hxs
  · rw [hblk.table]
    exact inv_upd h r rfl rfl rfl rfl fun _ => Or.inr hsrc

/-- An interrupt keeps the queues. -/
theorem inv_hwIntNotification (h : Inv T)
    (hcall : hwIntNotification T p = .ok (T', w)) : Inv T' := by
  rcases hwIntNotification_cases hcall with ⟨-, -, rfl, -⟩ | ⟨-, rfl, -⟩
  · refine inv_upd h p rfl rfl rfl rfl ?_
    intro hrec
    cases hrec
  · exact inv_upd h p rfl rfl rfl rfl fun hrec => Or.inl ⟨hrec, rfl⟩

end Calls

/-! ## PM -/

section Pm

variable {x : Choice} {s s' : Sys} {p r src : Int}

/-- A SEND keeps them. -/
theorem inv_send (h : Inv s.table) (hp : InTable p)
    (hrun : (s.table p).procState = RUNNABLE)
    (hr : InTable r → (s.table r).procState.freeSlot = false)
    (hcall : s.send x p r = .ok s') : Inv s'.table := by
  simp only [Sys.send, bind_eq_ok, pure_eq_ok] at hcall
  obtain ⟨⟨T', w⟩, hcall, rfl⟩ := hcall
  rw [table_settle]
  have hidle : (s.table p).procState.sending = false := by
    rw [hrun]
    rfl
  exact inv_kernelMsgSend h hp hidle hr hcall

/-- A RECEIVE keeps them. -/
theorem inv_rcv (h : Inv s.table) (hp : InTable p)
    (hsrc : InTable src → (s.table src).procState.freeSlot = false)
    (hfind : FindsSender s.table p src)
    (hcall : s.rcv x p src = .ok s') : Inv s'.table := by
  simp only [Sys.rcv, bind_eq_ok, pure_eq_ok] at hcall
  obtain ⟨⟨T', w⟩, hcall, rfl⟩ := hcall
  rw [table_settle]
  exact inv_kernelMsgRcv h hp hsrc hfind hcall

/-- PM changes an entry, but nothing that the queues read. -/
theorem inv_set (h : Inv s.table) (q : Int) {f : Proc → Proc}
    (hrest : ∀ y, (f y).qPendingProc = y.qPendingProc ∧
      (f y).procState.sending = y.procState.sending ∧
      (f y).pidSendingto = y.pidSendingto ∧
      (f y).procState.freeSlot = y.procState.freeSlot)
    (hwait : ∀ y, SameWait (f y) y) : Inv (s.upd q f).table := by
  obtain ⟨hlink, hsend, hto, hfree⟩ := hrest (s.table q)
  refine inv_upd h q hlink hsend hto hfree fun hrec => Or.inl ?_
  rw [← (hwait (s.table q)).1]
  exact ⟨hrec, (hwait (s.table q)).2⟩

/-- The loop of `do_wait` does. -/
theorem inv_scanChildren (h : Inv s.table) :
    ∀ {n : Nat} {i : Int} {hasChildren : Nat},
      Inv (scanChildren s p n i hasChildren).table := by
  intro n
  induction n with
  | zero =>
      intro i hasChildren
      rw [scanChildren]
      split
      · exact inv_set h p (fun _ => ⟨rfl, rfl, rfl, rfl⟩) fun _ => ⟨rfl, rfl⟩
      · exact h
  | succ n ih =>
      intro i hasChildren
      rw [scanChildren]
      split
      · split
        · exact h
        · exact ih
      · exact ih

/-- The report of a status does. -/
theorem inv_reportExit (h : Inv s.table) {status : Int} :
    Inv (reportExit s p status).table := by
  have h₁ : Inv (s.upd p fun y => { y with exitStatus := status }).table :=
    inv_set h p (fun _ => ⟨rfl, rfl, rfl, rfl⟩) fun _ => ⟨rfl, rfl⟩
  rw [reportExit]
  dsimp only
  split
  · exact inv_set h₁ _ (fun _ => ⟨rfl, rfl, rfl, rfl⟩) fun _ => ⟨rfl, rfl⟩
  · exact inv_set h₁ _ (fun _ => ⟨rfl, rfl, rfl, rfl⟩) fun _ => ⟨rfl, rfl⟩

/-- A new parent does. -/
theorem inv_adoptOne (h : Inv s.table) {i : Nat} :
    Inv (adoptOne s p i).table := by
  have h₁ : Inv (s.upd i (setParent INIT)).table :=
    inv_set h i (fun _ => ⟨rfl, rfl, rfl, rfl⟩) fun _ => ⟨rfl, rfl⟩
  rw [adoptOne]
  dsimp only
  split
  · split
    · split
      · exact inv_set h₁ _ (fun _ => ⟨rfl, rfl, rfl, rfl⟩) fun _ => ⟨rfl, rfl⟩
      · exact h₁
    · exact h
  · exact h

/-- The entry of the child. -/
theorem forkSlot_self (s : Sys) (p c base : Int) :
    (forkSlot s p c base).table c = childProc p base (s.table p) :=
  upd_self s.table c fun _ => childProc p base (s.table p)

/-- **THE COPY** of a process without senders. -/
theorem inv_forkSlot (h : Inv s.table) {c base : Int} (hp : InTable p)
    (hc : InTable c) (hfree : (s.table c).procState = FREE_SLOT)
    (hclean : Clean s.table p) : Inv (forkSlot s p c base).table := by
  have hself := forkSlot_self s p c base
  have hother : ∀ y, y ≠ c → (forkSlot s p c base).table y = s.table y :=
    fun y hy => upd_of_ne s.table (fun _ => childProc p base (s.table p)) hy
  have hlinkc : qLink (forkSlot s p c base).table c = none := by
    rw [qLink, hself]
    exact hclean.1
  have hlink : ∀ a x, qLink (forkSlot s p c base).table a = some x →
      a ≠ c ∧ qLink s.table a = some x := by
    intro a x hax
    have hac : a ≠ c := by
      rintro rfl
      rw [hlinkc] at hax
      cases hax
    rw [qLink, hother a hac] at hax
    exact ⟨hac, hax⟩
  -- a free slot is in no queue, and nobody waits for it
  have hidle : (s.table c).procState.sending = false := by
    rw [hfree]
    rfl
  have hslot : (s.table c).procState.freeSlot = true := by
    rw [hfree]
    rfl
  refine ⟨fun a b x ha hb hax hbx => ?_, fun a x ha hax => ?_,
    fun q r hq hr hw => ?_⟩
  · exact h.one a b x ha hb (hlink a x hax).2 (hlink b x hbx).2
  · obtain ⟨hx, hs⟩ := h.linked a x ha (hlink a x hax).2
    have hxc : x ≠ c := by
      rintro rfl
      rw [hidle] at hs
      cases hs
    rw [hother x hxc]
    exact ⟨hx, hs⟩
  · have hold : ∃ y, InTable y ∧ WaitsFor s.table y r := by
      by_cases hqc : q = c
      · subst hqc
        rw [WaitsFor, hself] at hw
        exact ⟨p, hp, hw⟩
      · rw [WaitsFor, hother q hqc] at hw
        exact ⟨q, hq, hw⟩
    obtain ⟨y, hy, hwait⟩ := hold
    have hlive := h.live y r hy hr hwait
    have hrc : r ≠ c := by
      rintro rfl
      rw [hslot] at hlive
      cases hlive
    rw [hother r hrc]
    exact hlive

/-- **A SLOT IS FREED** that nobody waits for. -/
theorem inv_setFree (h : Inv s.table) {c : Int}
    (hidle : (s.table c).procState.sending = false)
    (hno : ∀ q, InTable q → ¬ WaitsFor s.table q c) :
    Inv (s.upd c setFree).table := by
  have hself : (s.upd c setFree).table c = setFree (s.table c) :=
    upd_self s.table c setFree
  have hother : ∀ y, y ≠ c → (s.upd c setFree).table y = s.table y :=
    fun y hy => upd_of_ne s.table setFree hy
  have hlink : ∀ a, qLink (s.upd c setFree).table a = qLink s.table a :=
    congrFun (qLink_upd s.table c setFree (fun _ => rfl))
  refine ⟨fun a b x ha hb hax hbx => ?_, fun a x ha hax => ?_,
    fun q r hq hr hw => ?_⟩
  · rw [hlink] at hax hbx
    exact h.one a b x ha hb hax hbx
  · rw [hlink] at hax
    obtain ⟨hx, hs⟩ := h.linked a x ha hax
    have hxc : x ≠ c := by
      rintro rfl
      rw [hidle] at hs
      cases hs
    rw [hother x hxc]
    exact ⟨hx, hs⟩
  · have hqc : q ≠ c := by
      rintro rfl
      rw [WaitsFor, hself] at hw
      rcases hw with ⟨hs, -⟩ | ⟨hre, -⟩
      · cases hs
      · cases hre
    rw [WaitsFor, hother q hqc] at hw
    have hrc : r ≠ c := by
      rintro rfl
      exact hno q hq hw
    rw [hother r hrc]
    exact h.live q r hq hr hw

/-- What PM does with a message does. -/
theorem inv_dispatch (h : Inv s.table) (hbase : KosForkExec.Inv s)
    (hpc : s.pc = .dispatch) (hg : Orderly s .pm)
    (hcall : dispatch x s = .ok s') : Inv s'.table := by
  unfold dispatch at hcall
  split at hcall
  · cases hcall
  · rename_i src hmsg
    split at hcall
    · rw [pure_eq_ok] at hcall
      subst hcall
      exact h
    · rename_i c hfind
      simp only [bind_eq_ok, pure_eq_ok] at hcall
      obtain ⟨base, -, rfl⟩ := hcall
      obtain ⟨hc, hfree⟩ := findFree_eq_some (by decide) (by decide) hfind
      have hcaller : s.user src ≠ .running := by
        intro hu
        rcases hbase.message hpc src .fork hmsg with hu' | hu' <;>
          · rw [hu'] at hu
            cases hu
      exact inv_forkSlot h (hbase.caller src hcaller).1 hc hfree
        (hg.fork src rfl hpc hmsg)
  · rw [pure_eq_ok] at hcall
    subst hcall
    exact h
  · rw [pure_eq_ok] at hcall
    subst hcall
    exact h
  · rw [pure_eq_ok] at hcall
    subst hcall
    exact inv_scanChildren h

/-- Every step of PM does. -/
theorem inv_pmStep (h : Inv s.table) (hbase : KosForkExec.Inv s)
    (hrun : (s.table TASK_PM).procState = RUNNABLE) (hg : Orderly s .pm)
    (hcall : pmStep x s = .ok s') : Inv s'.table := by
  have hpm : InTable TASK_PM := by decide
  have hnames : ∀ r, named s .pm = some r → InTable r →
      (s.table r).procState.freeSlot = false := hg.names
  have hfinds : ∀ src, sought s .pm = some (TASK_PM, src) →
      FindsSender s.table TASK_PM src := fun src => hg.finds TASK_PM src
  cases hpc : s.pc with
  | receive =>
      simp only [pmStep, hpc] at hcall
      refine inv_rcv (s := { s with pc := .dispatch, pmMsg := none }) h hpm ?_
        (hfinds ANY (by simp only [sought, hpc])) hcall
      intro hany
      exact absurd hany (by decide)
  | dispatch =>
      simp only [pmStep, hpc] at hcall
      exact inv_dispatch h hbase hpc hg hcall
  | tell src job =>
      simp only [pmStep, hpc] at hcall
      exact inv_send (s := { s with pc := .hear src job }) h hpm hrun
        (hnames TASK_FS (by simp only [named, hpc])) hcall
  | hear src job =>
      simp only [pmStep, hpc] at hcall
      exact inv_rcv (s := { s with pc := afterFs x.ok src job }) h hpm
        (hnames TASK_FS (by simp only [named, hpc]))
        (hfinds TASK_FS (by simp only [sought, hpc])) hcall
  | birth src childPid =>
      simp only [pmStep, hpc] at hcall
      exact inv_send (s := { s with pc := .reply src }) h hpm hrun
        (hnames childPid (by simp only [named, hpc])) hcall
  | overwrite src =>
      simp only [pmStep, hpc, pure_eq_ok] at hcall
      subst hcall
      exact h
  | report currentPid status =>
      simp only [pmStep, hpc, pure_eq_ok] at hcall
      subst hcall
      exact inv_reportExit h
  | cleanup pid k =>
      simp only [pmStep, hpc] at hcall
      exact inv_send (s := { s with pc := .cleaned pid k }) h hpm hrun
        (hnames _ (by simp only [named, hpc])) hcall
  | cleaned pid k =>
      simp only [pmStep, hpc, pure_eq_ok] at hcall
      subst hcall
      obtain ⟨hidle, hno⟩ := hg.exit pid k rfl hpc
      exact inv_setFree h hidle hno
  | adopt currentPid i =>
      simp only [pmStep, hpc, pure_eq_ok] at hcall
      subst hcall
      exact inv_adoptOne h
  | reply src =>
      simp only [pmStep, hpc] at hcall
      exact inv_send (s := { s with pc := .receive }) h hpm hrun
        (hnames src (by simp only [named, hpc])) hcall

/-! ## Runs -/

/-- **STEP**: every orderly step keeps the invariant. -/
theorem inv_step {e : Label} (h : Inv s.table) (hbase : KosForkExec.Inv s)
    (hg : Orderly s e) (hstep : Step s e s') : Inv s'.table := by
  cases hstep with
  | send hq hr hpm huser hrun hcall =>
      exact inv_send h hq hrun (hg.names _ rfl) hcall
  | rcv hq hsrc hpm huser hrun hcall =>
      exact inv_rcv h hq (hg.names _ rfl) (hg.finds _ _ rfl) hcall
  | other hsend hrcv hstep =>
      cases e with
      | send q r => exact absurd rfl (hsend q r)
      | rcv q src => exact absurd rfl (hrcv q src)
      | ask q call =>
          cases hstep with
          | ask hq htask hforked huser hrun hcall =>
              exact inv_send (s := s.setUser q (.sent call)) h hq hrun
                (hg.names _ rfl) hcall
      | listen q =>
          cases hstep with
          | @listen _ _ _ _ call huser hrun hcall =>
              have hq : InTable q := by
                refine (hbase.caller q ?_).1
                rw [huser]
                simp
              exact inv_rcv (s := s.setUser q (.asked call)) h hq
                (hg.names _ rfl) (hg.finds _ _ rfl) hcall
      | hwInt p =>
          cases hstep with
          | hwInt hp hpm hcall => exact inv_hwIntNotification h hcall
      | outside =>
          cases hstep with
          | outside hin => exact inv_outside h hin
      | pm =>
          cases hstep with
          | pm hrun hcall => exact inv_pmStep h hbase hrun hg hcall

/-- At boot the queues are empty. -/
theorem inv_boot (h : Boot s) : Inv s.table := by
  obtain ⟨kTop, outside, htab⟩ := h.table
  have hlink : ∀ a, InTable a → qLink s.table a = none := by
    intro a ha
    rw [qLink, htab, initProcess, if_neg (by simpa using ha)]
    split
    · rfl
    · split <;> rfl
  have hidle : ∀ a, InTable a → (s.table a).procState.sending = false ∧
      (s.table a).procState.receiving = false := by
    intro a ha
    rw [htab, initProcess, if_neg (by simpa using ha)]
    split
    · exact ⟨rfl, rfl⟩
    · split <;> exact ⟨rfl, rfl⟩
  refine ⟨fun a b x ha _ hax => ?_, fun a x ha hax => ?_,
    fun q r hq _ hw => ?_⟩
  · rw [hlink a ha] at hax
    cases hax
  · rw [hlink a ha] at hax
    cases hax
  · obtain ⟨hs, hre⟩ := hidle q hq
    rcases hw with ⟨hs', -⟩ | ⟨hre', -⟩
    · rw [hs] at hs'
      cases hs'
    · rw [hre] at hre'
      cases hre'

/-- The invariant of PM and the processes. -/
theorem base_reach {guard : Sys → Label → Prop}
    (h : Reach Boot Step guard s) : KosForkExec.Inv s :=
  reach_invariant KosForkExec.Inv (fun _ h => KosForkExec.inv_boot h)
    (fun _ _ _ h _ hstep =>
      KosForkExec.inv_step h (step_iff.mpr ⟨_, rfl, hstep⟩)) h

/-- **THE QUEUES** in every state of a run under the condition. -/
theorem inv_reach (h : Reach Boot Step Orderly s) : Inv s.table :=
  reach_invariant_of KosForkExec.Inv (fun s => Inv s.table)
    (fun _ h => base_reach h) (fun _ h => inv_boot h)
    (fun _ _ _ hbase _ h hg hstep => inv_step h hbase hg hstep) h

/-- A child has the senders and the interrupt of its parent. -/
theorem newChild_clean_iff {e : Label} {c : Int} (hstep : Step s e s')
    (hnew : NewChild s e s' c) : ∃ p, s.pmMsg = some (p, .fork) ∧
      (Clean s'.table c ↔ Clean s.table p) := by
  obtain ⟨rfl, hpc, q, hpc'⟩ := hnew
  have hborn : s'.pc.newborn = some c := by
    rw [hpc']
    rfl
  cases hstep with
  | other _ _ hstep =>
      cases hstep with
      | pm hrun hcall =>
          simp only [pmStep, hpc] at hcall
          unfold dispatch at hcall
          split at hcall
          · cases hcall
          · rename_i p hmsg
            split at hcall
            · rw [pure_eq_ok] at hcall
              subst hcall
              cases hborn
            · simp only [bind_eq_ok, pure_eq_ok] at hcall
              obtain ⟨base, -, rfl⟩ := hcall
              obtain rfl := Option.some.inj hborn
              refine ⟨p, hmsg, ?_⟩
              rw [Clean, forkSlot_self]
              exact Iff.rfl
          · rw [pure_eq_ok] at hcall
            subst hcall
            cases hborn
          · rw [pure_eq_ok] at hcall
            subst hcall
            cases hborn
          · rw [pure_eq_ok] at hcall
            subst hcall
            rw [newborn_scanChildren] at hborn
            cases hborn

end Pm

/-- **ORDERLY RUNS** of the kernel and PM keep the queues apart and the waits
    alive, and their children start clean. -/
theorem ipc_wellFormed (s : Sys) (h : Reach Boot Step Orderly s) :
    WellFormed s.table ∧ ∀ e s' c, Orderly s e → Step s e s' →
      NewChild s e s' c → Clean s'.table c := by
  refine ⟨wellFormed_of_inv (inv_reach h), fun e s' c hg hstep hnew => ?_⟩
  obtain ⟨p, hmsg, hclean⟩ := newChild_clean_iff hstep hnew
  exact hclean.mpr (hg.fork p hnew.1 hnew.2.1 hmsg)

/-! ## A fork of INIT, without and with a sender -/

/-- Process 6 has sent to INIT, which waits for PM. -/
def queuedSys : Sys :=
  { askedSys with table := behind askedSys.table 6 INIT INIT 0x1000 }

/-- PM forks INIT. -/
theorem forked_step {s : Sys} (hpc : s.pc = .dispatch)
    (hmsg : s.pmMsg = some (INIT, .fork))
    (hrun : (s.table TASK_PM).procState = RUNNABLE)
    (hfind : findFree s.table 37 0 = some 9)
    (hbase : childBase 0x2000000 (s.table INIT) 9 = .ok 0xA00000) :
    Step s .pm (forkSlot s INIT 9 0xA00000) :=
  .other (by simp) (by simp) (forkSlot_step hpc hmsg hrun hfind hbase).2

theorem waiting_step : Step bootSys .pm waitingSys :=
  .other (by simp) (by simp) waitingSys_step

theorem sent_step : Step waitingSys (.ask INIT .fork) sentSys :=
  .other (by simp) (by simp) sentSys_step

theorem asked_step : Step sentSys (.listen INIT) askedSys :=
  .other (by simp) (by simp) askedSys_step

/-- A sender waits for INIT. -/
theorem queuedSys_step : Step askedSys (.send 6 INIT) queuedSys := by
  have hcall : askedSys.send quick 6 INIT = .ok queuedSys := rfl
  exact .send (by decide) (by decide) (by decide) rfl (by decide) hcall

theorem bootSys_orderly : Orderly bootSys .pm where
  names := by
    intro r hr
    cases hr
  finds := by
    intro r src hs hany
    cases hs
    exact absurd rfl hany
  fork := by
    intro p _ hpc
    cases hpc
  exit := by
    intro c k _ hpc
    cases hpc

theorem waitingSys_orderly : Orderly waitingSys (.ask INIT .fork) where
  names := by
    intro r hr _
    cases hr
    decide
  finds := by
    intro r src hs
    cases hs
  fork := by
    intro p he
    cases he
  exit := by
    intro c k he
    cases he

theorem sentSys_orderly : Orderly sentSys (.listen INIT) where
  names := by
    intro r hr _
    cases hr
    decide
  finds := by
    intro r src hs _ hsnd
    cases hs
    exact absurd hsnd (by decide)
  fork := by
    intro p he
    cases he
  exit := by
    intro c k he
    cases he

theorem askedSys_orderly : Orderly askedSys .pm where
  names := by
    intro r hr
    cases hr
  finds := by
    intro r src hs
    cases hs
  fork := by
    intro p _ _ hmsg
    cases hmsg
    exact ⟨rfl, rfl⟩
  exit := by
    intro c k _ hpc
    cases hpc

/-- INIT waits for PM and has no senders: the child starts clean. -/
theorem ipc_wellFormed_forked :
    WellFormed (forkSlot askedSys INIT 9 0xA00000).table ∧
      Clean (forkSlot askedSys INIT 9 0xA00000).table 9 := by
  have hreach : Reach Boot Step Orderly askedSys :=
    .next (.next (.next (.start bootSys_boot) bootSys_orderly waiting_step)
      waitingSys_orderly sent_step) sentSys_orderly asked_step
  have hfork : Step askedSys .pm (forkSlot askedSys INIT 9 0xA00000) :=
    forked_step rfl rfl (by decide) (by decide +kernel) (by decide +kernel)
  refine ⟨(ipc_wellFormed _ (.next hreach askedSys_orderly hfork)).1, ?_⟩
  exact (ipc_wellFormed _ hreach).2 .pm _ 9 askedSys_orderly hfork
    ⟨rfl, rfl, _, rfl⟩

/-- It waits for the child as well. -/
theorem inQueue_forked {r : Int} (hr : r = INIT ∨ r = 9) :
    InQueue (forkSlot queuedSys INIT 9 0xA00000).table 6 r := by
  rcases hr with rfl | rfl
  · exact ⟨by decide +kernel, [6], ⟨rfl, rfl⟩, List.mem_singleton.mpr rfl⟩
  · exact ⟨by decide +kernel, [6], ⟨rfl, rfl⟩, List.mem_singleton.mpr rfl⟩

/-- Process 6 sends to INIT before PM copies it: 6 is in the queues of INIT
    and of its child, which does not start clean. -/
theorem fork_shares_queue :
    (¬ ∀ s, Reach Boot Step free s → WellFormed s.table) ∧
      ¬ ∀ s, Reach Boot Step free s → ∀ e s' c, Step s e s' →
        NewChild s e s' c → Clean s'.table c := by
  have hreach : Reach Boot Step free queuedSys :=
    .next (.next (.next (.next (.start bootSys_boot) trivial waiting_step)
      trivial sent_step) trivial asked_step) trivial queuedSys_step
  have hfork : Step queuedSys .pm (forkSlot queuedSys INIT 9 0xA00000) :=
    forked_step rfl rfl (by decide +kernel) (by decide +kernel)
      (by decide +kernel)
  refine ⟨fun hall => ?_, fun hall => ?_⟩
  · have hwell := hall _ (.next hreach trivial hfork)
    have heq := hwell.queue 6 INIT 9 (by decide) (by decide)
      (inQueue_forked (Or.inl rfl)) (inQueue_forked (Or.inr rfl))
    exact absurd heq (by decide)
  · have hclean := hall _ hreach .pm _ 9 hfork ⟨rfl, rfl, _, rfl⟩
    exact absurd hclean.1 (by decide +kernel)

end KosForkQueues
