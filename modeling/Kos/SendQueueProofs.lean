import Kos.DeadlockProofs

/-! # The sending queues

    `q_pending_proc` is the head of a process's own queue of senders and also
    its link in the queue it is blocked in.  A ghost list records the blocked
    senders in blocking order.

    * the ghost list always holds exactly the SENDING processes
      (`blockedInOrder_step`);
    * as long as nobody blocks while senders wait for him, or on a process that
      is itself blocked, every receiver that is not SENDING heads the chain of
      exactly its senders (`queues_step`);
    * the invariant as it stands for every process asks in addition that no
      queue grows beyond one sender (`sendQueue_exact`), and a chain
      7 → 6 → 5 of blocked senders breaks it (`sendQueue_drops_sender`). -/

namespace KosSendQueue

open FlatMemory KosKernel KosIpc KosDeadlock LinkChain WaitGraph GuardedRun

/-- A table and the processes blocked as senders, oldest first. -/
structure Run where
  table : Table
  order : List Int

/-- The processes in `order` that send to `r`. -/
def sendersOf (T : Table) (order : List Int) (r : Int) : List Int :=
  order.filter fun s => (T s).pidSendingto = r

/-- The caller of a send that has blocked. -/
def blockedBy (T' : Table) : Event → List Int
  | .send s _ _ => if (T' s).procState.sending then [s] else []
  | _ => []

/-- `order` after a step: who was released goes, who blocked comes last. -/
def orderAfter (T' : Table) (e : Event) (order : List Int) : List Int :=
  order.filter (fun s => (T' s).procState.sending) ++ blockedBy T' e

/-- A step of the kernel with its effect on the ghost list. -/
def RunStep (σ : Run) (e : Event) (σ' : Run) : Prop :=
  Step σ.table e σ'.table ∧ σ'.order = orderAfter σ'.table e σ.order

/-- Boot: nobody is blocked. -/
def Boot (σ : Run) : Prop := Booted σ.table ∧ σ.order = []

/-- The ghost list holds the SENDING processes, each once. -/
structure BlockedInOrder (T : Table) (order : List Int) : Prop where
  nodup : order.Nodup
  mem : ∀ s, s ∈ order ↔ InTable s ∧ (T s).procState.sending = true

/-- The chain from `r` lists the senders of `r`. -/
def QueueOf (T : Table) (order : List Int) (r : Int) : Prop :=
  Links (qLink T) (qLink T r) (sendersOf T order r)

/-- The invariant for every process. -/
structure AllQueues (T : Table) (order : List Int) : Prop where
  blocked : BlockedInOrder T order
  queue : ∀ r, InTable r → QueueOf T order r

/-- The invariant for the processes that are not SENDING, and nobody waits for
    a process that is. -/
structure Queues (T : Table) (order : List Int) : Prop where
  blocked : BlockedInOrder T order
  free : ∀ s ∈ order, (T (T s).pidSendingto).procState.sending = false
  queue : ∀ r, InTable r → (T r).procState.sending = false →
    QueueOf T order r

/-! ## Conditions on a call -/

/-- The words in front of the table do not read as a sender to the caller. -/
def NoFakeSender (T : Table) : Event → Prop
  | .rcv r src _ => src = INTERRUPT →
      ¬ ((T INTERRUPT).procState.sending = true ∧
        (T INTERRUPT).pidSendingto = r)
  | _ => True

/-- Who blocks has no senders waiting, and blocks on a process that is not
    blocked itself. -/
def BlocksFree (T : Table) : Event → Prop
  | .send s r _ => ¬ IsWaitingFor T r s →
      (T s).qPendingProc = none ∧ (T r).procState.sending = false
  | _ => True

/-- Who blocks finds the queue of the receiver empty. -/
def BlocksFirst (T : Table) : Event → Prop
  | .send s r _ => ¬ IsWaitingFor T r s → (T r).qPendingProc = none
  | _ => True

/-- The condition for the processes that are not SENDING. -/
def Flat (σ : Run) (e : Event) : Prop :=
  NoFakeSender σ.table e ∧ BlocksFree σ.table e

/-- The condition for every process. -/
def Single (σ : Run) (e : Event) : Prop :=
  Flat σ e ∧ BlocksFirst σ.table e

/-! ## The ghost list -/

/-- The senders to `r` among those in order. -/
theorem mem_sendersOf {T : Table} {order : List Int} {r s : Int} :
    s ∈ sendersOf T order r ↔ s ∈ order ∧ (T s).pidSendingto = r := by
  simp [sendersOf]

/-- A process in the order is sending. -/
theorem sending_of_mem {T : Table} {order : List Int} {x : Int}
    (hb : BlockedInOrder T order) (hx : x ∈ order) :
    (T x).procState.sending ≠ false := by
  rw [((hb.mem x).mp hx).2]
  exact Bool.noConfusion

/-- A process that sends after a step sent before, to the same receiver, or
    blocked in the step. -/
theorem sending_step {T T' : Table} {e : Event} (hstep : Step T e T')
    {x : Int} (hx : InTable x) (hsend : (T' x).procState.sending = true) :
    ((T x).procState.sending = true ∧
        (T' x).pidSendingto = (T x).pidSendingto) ∨
      ∃ r m w, e = .send x r m ∧ SentBlocked T x r m T' w := by
  have hnew : edge (T' x) = some ((T' x).pidSendingto, (T' x).pendingMsg) := by
    rw [edge, if_pos hsend]
  have hkeep : edge (T' x) = edge (T x) →
      (T x).procState.sending = true ∧
        (T' x).pidSendingto = (T x).pidSendingto := by
    intro heq
    by_cases hold : (T x).procState.sending = true
    · rw [hnew, edge, if_pos hold, Option.some.injEq, Prod.mk.injEq] at heq
      exact ⟨hold, heq.1⟩
    · rw [hnew, edge, if_neg hold] at heq
      cases heq
  rcases edge_step hstep with hsub | ⟨s, r, m, w, rfl, hblk⟩
  · rcases hsub x hx with hnone | heq
    · cases hnew.symm.trans hnone
    · exact Or.inl (hkeep heq)
  · by_cases hxs : x = s
    · subst hxs
      exact Or.inr ⟨r, m, w, rfl, hblk⟩
    · refine Or.inl (hkeep ?_)
      obtain ⟨t, l, -, rfl⟩ := hblk.table
      rw [edge_setLink, edge_setLink, upd_of_ne T _ hxs]

/-- The event blocks its sender alone. -/
theorem mem_blockedBy {T' : Table} {e : Event} {x : Int} :
    x ∈ blockedBy T' e ↔
      (∃ r m, e = .send x r m) ∧ (T' x).procState.sending = true := by
  cases e with
  | send s r m =>
      simp only [blockedBy, Event.send.injEq]
      constructor
      · intro hx
        split at hx
        · obtain rfl : x = s := List.mem_singleton.mp hx
          exact ⟨⟨r, m, rfl, rfl, rfl⟩, by assumption⟩
        · cases hx
      · rintro ⟨⟨_, _, rfl, -⟩, hx⟩
        simp [hx]
  | rcv _ _ _ | hwInt _ | outside =>
      constructor
      · intro hx; cases hx
      · rintro ⟨⟨_, _, he⟩, -⟩; cases he

/-- One event blocks one process at most. -/
theorem nodup_blockedBy (T' : Table) (e : Event) :
    (blockedBy T' e).Nodup := by
  cases e with
  | send s r m =>
      simp only [blockedBy]
      split <;> simp
  | rcv _ _ _ | hwInt _ | outside => exact List.nodup_nil

/-- Who is in the order after an event. -/
theorem mem_orderAfter {T' : Table} {e : Event} {order : List Int}
    {x : Int} :
    x ∈ orderAfter T' e order ↔
      (x ∈ order ∨ ∃ r m, e = .send x r m) ∧
        (T' x).procState.sending = true := by
  rw [orderAfter, List.mem_append, List.mem_filter, mem_blockedBy,
    ← or_and_right]

/-- The caller of a send is an entry and was not blocked. -/
theorem caller_of_send {T T' : Table} {s r : Int} {m : Addr}
    (hstep : Step T (.send s r m) T') :
    InTable s ∧ InTable r ∧ (T s).procState.sending = false := by
  cases hstep with
  | send hs hrun hr _ =>
      refine ⟨hs, hr, ?_⟩
      rw [hrun]
      rfl

/-- **STEP**: the ghost list goes on holding the SENDING processes. -/
theorem blockedInOrder_step {T T' : Table} {e : Event} {order : List Int}
    (hb : BlockedInOrder T order) (hstep : Step T e T') :
    BlockedInOrder T' (orderAfter T' e order) := by
  constructor
  · refine List.Nodup.append (hb.nodup.filter _) (nodup_blockedBy T' e) ?_
    intro x hx hx'
    obtain ⟨⟨r, m, rfl⟩, -⟩ := mem_blockedBy.mp hx'
    exact sending_of_mem hb (List.mem_filter.mp hx).1
      (caller_of_send hstep).2.2
  · intro x
    rw [mem_orderAfter]
    constructor
    · rintro ⟨hx | ⟨r, m, rfl⟩, hsend⟩
      · exact ⟨((hb.mem x).mp hx).1, hsend⟩
      · exact ⟨(caller_of_send hstep).1, hsend⟩
    · rintro ⟨hx, hsend⟩
      refine ⟨?_, hsend⟩
      rcases sending_step hstep hx hsend with ⟨hold, -⟩ | ⟨r, m, w, he, -⟩
      · exact Or.inl ((hb.mem x).mpr ⟨hx, hold⟩)
      · exact Or.inr ⟨r, m, he⟩

/-! ## Steps that leave the queues alone -/

/-- No entry starts or stops sending, and no link changes. -/
structure Quiet (T T' : Table) : Prop where
  link : ∀ x, InTable x → qLink T' x = qLink T x
  sending : ∀ x, InTable x →
    (T' x).procState.sending = (T x).procState.sending
  target : ∀ x, InTable x → (T x).procState.sending = true →
    (T' x).pidSendingto = (T x).pidSendingto

/-- A quiet step leaves the order. -/
theorem orderAfter_quiet {T T' : Table} {e : Event} {order : List Int}
    (hb : BlockedInOrder T order) (hq : Quiet T T') (hstep : Step T e T') :
    orderAfter T' e order = order := by
  have hnew : blockedBy T' e = [] := by
    refine List.eq_nil_iff_forall_not_mem.mpr (fun x hx => ?_)
    obtain ⟨⟨r, m, rfl⟩, hsend⟩ := mem_blockedBy.mp hx
    obtain ⟨hin, -, hold⟩ := caller_of_send hstep
    rw [hq.sending x hin, hold] at hsend
    cases hsend
  rw [orderAfter, hnew, List.append_nil, List.filter_eq_self]
  intro x hx
  obtain ⟨hin, hsend⟩ := (hb.mem x).mp hx
  rw [hq.sending x hin]
  exact hsend

/-- A quiet step leaves the senders of every receiver. -/
theorem sendersOf_quiet {T T' : Table} {order : List Int}
    (hb : BlockedInOrder T order) (hq : Quiet T T') (r : Int) :
    sendersOf T' order r = sendersOf T order r := by
  refine List.filter_congr (fun x hx => ?_)
  obtain ⟨hin, hsend⟩ := (hb.mem x).mp hx
  rw [hq.target x hin hsend]

/-- A quiet step keeps a queue. -/
theorem queueOf_quiet {T T' : Table} {order : List Int} {r : Int}
    (hb : BlockedInOrder T order) (hq : Quiet T T') (hr : InTable r)
    (h : QueueOf T order r) : QueueOf T' order r := by
  rw [QueueOf, sendersOf_quiet hb hq, hq.link r hr]
  refine links_congr (fun x hx => ?_) h
  exact hq.link x ((hb.mem x).mp (mem_sendersOf.mp hx).1).1

/-- An update of one entry that is quiet there is quiet. -/
theorem quiet_upd {T : Table} {p : Int} {f : Proc → Proc}
    (hl : (f (T p)).qPendingProc = (T p).qPendingProc)
    (hs : (f (T p)).procState.sending = (T p).procState.sending)
    (ht : (T p).procState.sending = true →
      (f (T p)).pidSendingto = (T p).pidSendingto) : Quiet T (T.upd p f) := by
  refine ⟨fun x _ => ?_, fun x _ => ?_, fun x _ => ?_⟩ <;>
    by_cases hx : x = p
  · subst hx; rw [qLink, upd_self, hl, qLink]
  · rw [qLink, upd_of_ne T f hx, qLink]
  · subst hx; rw [upd_self, hs]
  · rw [upd_of_ne T f hx]
  · subst hx; rw [upd_self]; exact ht
  · rw [upd_of_ne T f hx]; intro; rfl

/-- A step is quiet, a SEND that blocks or a RECEIVE that takes a sender. -/
theorem step_cases {T T' : Table} {e : Event} (hstep : Step T e T') :
    Quiet T T' ∨
      (∃ s r m w, e = .send s r m ∧ s ≠ r ∧ SentBlocked T s r m T' w) ∨
      ∃ fuel r src m s x w, e = .rcv r src m ∧ InTable r ∧ IsSource src ∧
        RcvdFrom fuel T r src m s x T' w := by
  cases hstep with
  | send hs hrun hr hcall =>
      obtain ⟨hne, -, hdir | hblk⟩ := kernelMsgSend_cases hcall
      · refine Or.inl ?_
        rw [hdir.table]
        exact quiet_upd rfl rfl (fun _ => rfl)
      · exact Or.inr (Or.inl ⟨_, _, _, _, rfl, hne, hblk⟩)
  | rcv hr hrun hsrc hcall =>
      obtain ⟨-, hint | ⟨-, ⟨s, x, hfrom⟩ | hblk⟩⟩ := kernelMsgRcv_cases hcall
      · refine Or.inl ?_
        rw [hint.table]
        exact quiet_upd rfl rfl (fun _ => rfl)
      · exact Or.inr (Or.inr ⟨_, _, _, _, s, x, _, rfl, hr, hsrc, hfrom⟩)
      · refine Or.inl ?_
        rw [hblk.table]
        exact quiet_upd rfl rfl (fun _ => rfl)
  | hwInt hp hcall =>
      refine Or.inl ?_
      rcases hwIntNotification_cases hcall with
        ⟨-, -, rfl, -⟩ | ⟨-, rfl, -⟩ <;>
        exact quiet_upd rfl rfl (fun _ => rfl)
  | outside hin =>
      refine Or.inl ⟨fun x hx => ?_, fun x hx => ?_, fun x hx _ => ?_⟩
      · rw [qLink, hin x hx, qLink]
      · rw [hin x hx]
      · rw [hin x hx]

/-! ## A sender blocks -/

/-- The table after `s` has blocked behind `t`. -/
def behind (T : Table) (s r t : Int) (m : Addr) : Table :=
  setLink (setLink (T.upd s (blockedSending r m)) t (some s)) s none

/-- The links of the queues with `s` behind `t`. -/
theorem qLink_behind (T : Table) (s r t : Int) (m : Addr) (y : Int) :
    qLink (behind T s r t m) y =
      if y = s then none else if y = t then some s else qLink T y := by
  rw [behind]
  by_cases hs : y = s
  · subst hs; rw [qLink_setLink_self, if_pos rfl]
  · rw [qLink_setLink_of_ne _ _ hs, if_neg hs]
    by_cases ht : y = t
    · subst ht; rw [qLink_setLink_self, if_pos rfl]
    · rw [qLink_setLink_of_ne _ _ ht, if_neg ht, qLink, upd_of_ne T _ hs,
        qLink]

/-- Who is sending with `s` behind `t`. -/
theorem sending_behind (T : Table) (s r t : Int) (m : Addr) (y : Int) :
    (behind T s r t m y).procState.sending =
      if y = s then true else (T y).procState.sending := by
  rw [behind, setLink_procState, setLink_procState]
  by_cases hs : y = s
  · subst hs; rw [upd_self, if_pos rfl]; rfl
  · rw [upd_of_ne T _ hs, if_neg hs]

/-- Where everyone sends to with `s` behind `t`. -/
theorem target_behind (T : Table) (s r t : Int) (m : Addr) (y : Int) :
    (behind T s r t m y).pidSendingto =
      if y = s then r else (T y).pidSendingto := by
  rw [behind, setLink_pidSendingto, setLink_pidSendingto]
  by_cases hs : y = s
  · subst hs; rw [upd_self, if_pos rfl]; rfl
  · rw [upd_of_ne T _ hs, if_neg hs]

/-- A SEND that blocks puts its sender at the end of the order. -/
theorem orderAfter_behind {T : Table} {order : List Int} {s r t : Int}
    {m : Addr} (hb : BlockedInOrder T order) :
    orderAfter (behind T s r t m) (.send s r m) order = order ++ [s] := by
  have hs : (behind T s r t m s).procState.sending = true := by
    rw [sending_behind, if_pos rfl]
  have hkeep : order.filter
      (fun x => (behind T s r t m x).procState.sending) = order := by
    refine List.filter_eq_self.mpr (fun x hx => ?_)
    rw [sending_behind]
    split
    · rfl
    · exact ((hb.mem x).mp hx).2
  rw [orderAfter, hkeep, blockedBy, if_pos hs]

/-- A SEND that blocks adds its sender to the senders of its receiver. -/
theorem sendersOf_behind {T : Table} {order : List Int} {s r t r' : Int}
    {m : Addr} (hs : s ∉ order) :
    sendersOf (behind T s r t m) (order ++ [s]) r' =
      sendersOf T order r' ++ if r = r' then [s] else [] := by
  rw [sendersOf, List.filter_append]
  congr 1
  · refine List.filter_congr (fun x hx => ?_)
    have hxs : x ≠ s := by rintro rfl; exact hs hx
    rw [target_behind, if_neg hxs]
  · rw [List.filter_singleton, target_behind, if_pos rfl]
    by_cases hr : r = r' <;> simp [hr]

/-- The last cell of the chain from a receiver that is not SENDING. -/
theorem last_cell {T : Table} {order l : List Int} {r t : Int}
    (hq : QueueOf T order r) (hl : Links (qLink T) (some r) (l ++ [t])) :
    r :: sendersOf T order r = l ++ [t] :=
  links_unique (p := some r) ⟨rfl, hq⟩ hl

/-- The receiver's queue gets its new last member. -/
theorem queueOf_behind_self {T : Table} {order l : List Int} {s r t : Int}
    {m : Addr} (hso : s ∉ order) (hne : s ≠ r) (hq : QueueOf T order r)
    (hl : Links (qLink T) (some r) (l ++ [t])) :
    QueueOf (behind T s r t m) (order ++ [s]) r := by
  have hlast := last_cell hq hl
  have hmem : ∀ a ∈ l ++ [t], a ≠ s := by
    intro a ha
    rw [← hlast] at ha
    rintro rfl
    rcases List.mem_cons.mp ha with heq | ha
    · exact hne heq
    · exact hso (mem_sendersOf.mp ha).1
  have hchain : Links (qLink (behind T s r t m)) (some r) (l ++ [t, s]) := by
    refine links_append hl (fun a ha => ?_) ?_ ?_
    · have hat : a ≠ t := by
        rintro rfl
        exact (List.nodup_append.mp (links_nodup hl)).2.2 a ha a (by simp) rfl
      rw [qLink_behind, if_neg (hmem a (by simp [ha])), if_neg hat]
    · rw [qLink_behind, if_neg (hmem t (by simp)), if_pos rfl]
    · rw [qLink_behind, if_pos rfl]
  have hlist : l ++ [t, s] = r :: (sendersOf T order r ++ [s]) := by
    rw [← List.cons_append, hlast, List.append_assoc]
    rfl
  rw [hlist] at hchain
  rw [QueueOf, sendersOf_behind hso, if_pos rfl]
  exact hchain.2

/-- A queue that does not contain the last cell is left alone. -/
theorem queueOf_behind_of_ne {T : Table} {order : List Int} {s r t r' : Int}
    {m : Addr} (hso : s ∉ order) (hrr : r ≠ r') (hrs : r' ≠ s)
    (hrt : r' ≠ t) (htm : t ∉ sendersOf T order r')
    (hq : QueueOf T order r') :
    QueueOf (behind T s r t m) (order ++ [s]) r' := by
  rw [QueueOf, sendersOf_behind hso, if_neg hrr, List.append_nil,
    qLink_behind, if_neg hrs, if_neg hrt]
  refine links_congr (fun y hy => ?_) hq
  have hys : y ≠ s := by
    rintro rfl
    exact hso (mem_sendersOf.mp hy).1
  have hyt : y ≠ t := by
    rintro rfl
    exact htm hy
  rw [qLink_behind, if_neg hys, if_neg hyt]

/-- A process that is not SENDING and has no link has no senders. -/
theorem sendersOf_eq_nil {T : Table} {order : List Int} {r : Int}
    (h : QueueOf T order r) (hq : qLink T r = none) :
    sendersOf T order r = [] := by
  rw [QueueOf, hq] at h
  exact links_none h

/-- **STEP**: a process with no senders of its own joins the queue of a
    process that is not SENDING. -/
theorem queues_behind {T : Table} {order l : List Int} {s r t : Int}
    {m : Addr} (h : Queues T order) (hs : InTable s)
    (hidle : (T s).procState.sending = false) (hr : InTable r) (hne : s ≠ r)
    (hsq : qLink T s = none) (hrq : (T r).procState.sending = false)
    (hl : Links (qLink T) (some r) (l ++ [t]))
    (hb' : BlockedInOrder (behind T s r t m) (order ++ [s])) :
    Queues (behind T s r t m) (order ++ [s]) := by
  have hsend : ∀ {x}, x ∈ order → (T x).procState.sending ≠ false :=
    fun hx => sending_of_mem h.blocked hx
  have hso : s ∉ order := fun hx => hsend hx hidle
  -- `s` blocks with an empty queue, behind the last sender to `r`
  have hqr := h.queue r hr hrq
  have hnil := sendersOf_eq_nil (h.queue s hs hidle) hsq
  have ht : t = r ∨ t ∈ sendersOf T order r := by
    rw [← List.mem_cons, last_cell hqr hl]
    simp
  refine ⟨hb', ?_, ?_⟩
  · intro x hx
    rw [sending_behind, target_behind]
    by_cases hxs : x = s
    · rw [if_pos hxs, if_neg hne.symm]
      exact hrq
    · have hxo : x ∈ order := by
        rcases List.mem_append.mp hx with hx | hx
        · exact hx
        · exact absurd (List.mem_singleton.mp hx) hxs
      have hto : (T x).pidSendingto ≠ s := by
        intro hto
        have hmem : x ∈ sendersOf T order s := mem_sendersOf.mpr ⟨hxo, hto⟩
        rw [hnil] at hmem
        cases hmem
      rw [if_neg hxs, if_neg hto]
      exact h.free x hxo
  · intro r' hr' hr'q
    rw [sending_behind] at hr'q
    have hr's : r' ≠ s := by
      intro heq
      rw [if_pos heq] at hr'q
      cases hr'q
    rw [if_neg hr's] at hr'q
    by_cases hrr : r = r'
    · subst hrr
      exact queueOf_behind_self hso hne hqr hl
    · refine queueOf_behind_of_ne hso hrr hr's ?_ ?_ (h.queue r' hr' hr'q)
      · rintro rfl
        rcases ht with heq | hmem
        · exact hrr heq.symm
        · exact hsend (mem_sendersOf.mp hmem).1 hr'q
      · intro htr'
        obtain ⟨hto, htt⟩ := mem_sendersOf.mp htr'
        rcases ht with heq | hmem
        · exact hsend hto (heq ▸ hrq)
        · exact hrr ((mem_sendersOf.mp hmem).2.symm.trans htt)

/-! ## A sender is taken from a queue -/

/-- The table after the sender `s` behind `x` has been released. -/
def taken (T : Table) (s x : Int) : Table :=
  (setLink (setLink T x (T s).qPendingProc) s none).upd s released

/-- The links of the queues once `s` is taken out from behind `x`. -/
theorem qLink_taken (T : Table) (s x y : Int) :
    qLink (taken T s x) y =
      if y = s then none else if y = x then qLink T s else qLink T y := by
  rw [taken, qLink_upd _ s released (fun _ => rfl)]
  by_cases hs : y = s
  · subst hs; rw [qLink_setLink_self, if_pos rfl]
  · rw [qLink_setLink_of_ne _ _ hs, if_neg hs]
    by_cases hx : y = x
    · subst hx; rw [qLink_setLink_self, if_pos rfl, qLink]
    · rw [qLink_setLink_of_ne _ _ hx, if_neg hx]

/-- Who is sending once `s` is taken out. -/
theorem sending_taken (T : Table) (s x y : Int) :
    (taken T s x y).procState.sending =
      if y = s then false else (T y).procState.sending := by
  rw [taken]
  by_cases hs : y = s
  · subst hs; rw [upd_self, if_pos rfl]; rfl
  · rw [upd_of_ne _ _ hs, if_neg hs, setLink_procState, setLink_procState]

/-- Taking `s` out leaves the target of every other process. -/
theorem target_taken (T : Table) {s y : Int} (x : Int) (hs : y ≠ s) :
    (taken T s x y).pidSendingto = (T y).pidSendingto := by
  rw [taken, upd_of_ne _ _ hs, setLink_pidSendingto, setLink_pidSendingto]

/-- A RECEIVE takes its sender out of the order. -/
theorem orderAfter_taken {T : Table} {order : List Int} {r src s x : Int}
    {m : Addr} (hb : BlockedInOrder T order) :
    orderAfter (taken T s x) (.rcv r src m) order =
      order.filter (fun y => y ≠ s) := by
  have hnew : blockedBy (taken T s x) (.rcv r src m) = [] := rfl
  rw [orderAfter, hnew, List.append_nil]
  refine List.filter_congr (fun y hy => ?_)
  rw [sending_taken]
  by_cases hys : y = s
  · simp [hys]
  · simp [hys, ((hb.mem y).mp hy).2]

/-- A RECEIVE takes its sender out of the senders. -/
theorem sendersOf_taken (T : Table) (order : List Int) (s x r : Int) :
    sendersOf (taken T s x) (order.filter (fun y => y ≠ s)) r =
      (sendersOf T order r).filter (fun y => y ≠ s) := by
  rw [sendersOf, sendersOf, List.filter_filter, List.filter_filter]
  refine List.filter_congr (fun y _ => ?_)
  by_cases hys : y = s
  · simp [hys]
  · simp [hys, target_taken T x hys]

/-- The redirected cell: the receiver's own, or the predecessor of `s` among
    the senders. -/
theorem redirected_cell {fuel : Nat} {T T' : Table} {order : List Int}
    {r src s x : Int} {m : Addr} {w : List Write}
    (hf : RcvdFrom fuel T r src m s x T' w) (hq : QueueOf T order r)
    (hs : s ∈ order) :
    (x = r ∧ ∃ l₂, sendersOf T order r = s :: l₂) ∨
      ∃ l₁ l₂, sendersOf T order r = l₁ ++ x :: s :: l₂ := by
  have hmem : s ∈ sendersOf T order r := mem_sendersOf.mpr ⟨hs, hf.target⟩
  rcases hf.redirected with ⟨hxr, hhead⟩ | ⟨-, hsearch⟩
  · refine Or.inl ⟨hxr, ?_⟩
    rw [QueueOf, qLink, hhead] at hq
    obtain ⟨l₂, hl₂, -⟩ := links_some hq
    exact ⟨l₂, hl₂⟩
  · refine Or.inr ?_
    obtain ⟨l₁, l₂, hl, hx⟩ := searchQueue_of_links hq hmem hsearch
    rw [Option.or_none] at hx
    obtain ⟨l₀, rfl⟩ := List.getLast?_eq_some_iff.mp hx.symm
    exact ⟨l₀, l₂, by rw [hl]; simp⟩

/-- The receiver's queue without `s`. -/
theorem queueOf_taken_self {T : Table} {order : List Int} {r s x : Int}
    (hb : BlockedInOrder T order) (hrq : (T r).procState.sending = false)
    (hq : QueueOf T order r) (hs : s ∈ order)
    (hx : (x = r ∧ ∃ l₂, sendersOf T order r = s :: l₂) ∨
      ∃ l₁ l₂, sendersOf T order r = l₁ ++ x :: s :: l₂) :
    QueueOf (taken T s x) (order.filter (fun y => y ≠ s)) r := by
  have hnd : (sendersOf T order r).Nodup := hb.nodup.filter _
  have hrmem : ∀ y ∈ sendersOf T order r, y ≠ r := by
    rintro y hy rfl
    exact sending_of_mem hb (mem_sendersOf.mp hy).1 hrq
  have hrs : r ≠ s := by
    rintro rfl
    exact sending_of_mem hb hs hrq
  rw [QueueOf, sendersOf_taken]
  rw [QueueOf] at hq
  rcases hx with ⟨rfl, l₂, hl⟩ | ⟨l₁, l₂, hl⟩
  · rw [hl] at hq hnd hrmem ⊢
    have hs₂ : s ∉ l₂ := (List.nodup_cons.mp hnd).1
    have hfil : (s :: l₂).filter (fun y => decide (y ≠ s)) = l₂ := by
      rw [List.filter_cons_of_neg (by simp), List.filter_eq_self]
      intro y hy
      exact decide_eq_true (fun heq => hs₂ (heq ▸ hy))
    rw [hfil, qLink_taken, if_neg hrs, if_pos rfl]
    refine links_unlink_head hq (fun y hy => ?_)
    have hys : y ≠ s := fun heq => hs₂ (heq ▸ hy)
    rw [qLink_taken, if_neg hys, if_neg (hrmem y (by simp [hy]))]
  · rw [hl] at hq hnd hrmem ⊢
    obtain ⟨hnd₁, hnd₂, hdis⟩ := List.nodup_append.mp hnd
    obtain ⟨hx₂, hnd₃⟩ := List.nodup_cons.mp hnd₂
    have hs₂ : s ∉ l₂ := (List.nodup_cons.mp hnd₃).1
    have hxs : x ≠ s := fun heq => hx₂ (by simp [heq])
    have hne : ∀ y ∈ l₁ ++ l₂, y ≠ s ∧ y ≠ x := by
      intro y hy
      rcases List.mem_append.mp hy with hy | hy
      · exact ⟨hdis y hy s (by simp), hdis y hy x (by simp)⟩
      · exact ⟨fun heq => hs₂ (heq ▸ hy), fun heq => hx₂ (by simp [← heq, hy])⟩
    have hfil : (l₁ ++ x :: s :: l₂).filter (fun y => decide (y ≠ s)) =
        l₁ ++ x :: l₂ := by
      rw [List.filter_append, List.filter_cons_of_pos (by simp [hxs]),
        List.filter_cons_of_neg (by simp), List.filter_eq_self.mpr,
        List.filter_eq_self.mpr]
      · intro y hy
        exact decide_eq_true (hne y (by simp [hy])).1
      · intro y hy
        exact decide_eq_true (hne y (by simp [hy])).1
    have hrx : r ≠ x := (hrmem x (by simp)).symm
    rw [hfil, qLink_taken, if_neg hrs, if_neg hrx]
    refine links_unlink_inner hq (fun y hy => ?_) ?_
    · rw [qLink_taken, if_neg (hne y hy).1, if_neg (hne y hy).2]
    · rw [qLink_taken, if_neg hxs, if_pos rfl]

/-- A queue that contains neither `s` nor the redirected cell is left
    alone. -/
theorem queueOf_taken_of_ne {T : Table} {order : List Int} {s x r' : Int}
    (hrs : r' ≠ s) (hrx : r' ≠ x) (hsm : s ∉ sendersOf T order r')
    (hxm : x ∉ sendersOf T order r') (hq : QueueOf T order r') :
    QueueOf (taken T s x) (order.filter (fun y => y ≠ s)) r' := by
  have hfil : (sendersOf T order r').filter (fun y => decide (y ≠ s)) =
      sendersOf T order r' := by
    refine List.filter_eq_self.mpr (fun y hy => decide_eq_true ?_)
    rintro rfl
    exact hsm hy
  rw [QueueOf, sendersOf_taken, hfil, qLink_taken, if_neg hrs, if_neg hrx]
  refine links_congr (fun y hy => ?_) hq
  have hys : y ≠ s := by rintro rfl; exact hsm hy
  have hyx : y ≠ x := by rintro rfl; exact hxm hy
  rw [qLink_taken, if_neg hys, if_neg hyx]

/-- **STEP**: a blocked sender leaves the queue of a process that is not
    SENDING. -/
theorem queues_taken {T : Table} {order : List Int} {s r x : Int}
    (h : Queues T order) (hr : InTable r)
    (hrq : (T r).procState.sending = false) (hs : s ∈ order)
    (hto : (T s).pidSendingto = r)
    (hx : (x = r ∧ ∃ l₂, sendersOf T order r = s :: l₂) ∨
      ∃ l₁ l₂, sendersOf T order r = l₁ ++ x :: s :: l₂)
    (hb' : BlockedInOrder (taken T s x) (order.filter (fun y => y ≠ s))) :
    Queues (taken T s x) (order.filter (fun y => y ≠ s)) := by
  have hsend : ∀ {x}, x ∈ order → (T x).procState.sending ≠ false :=
    fun hx => sending_of_mem h.blocked hx
  have hxr : x = r ∨ (x ∈ sendersOf T order r ∧ x ≠ s) := by
    rcases hx with ⟨hxr, -⟩ | ⟨l₁, l₂, hl⟩
    · exact Or.inl hxr
    · have hnd : (sendersOf T order r).Nodup := h.blocked.nodup.filter _
      rw [hl] at hnd ⊢
      refine Or.inr ⟨by simp, ?_⟩
      rintro rfl
      exact (List.nodup_cons.mp (List.nodup_append.mp hnd).2.1).1 (by simp)
  refine ⟨hb', ?_, ?_⟩
  · intro y hy
    obtain ⟨hyo, hys⟩ := List.mem_filter.mp hy
    have hys : y ≠ s := of_decide_eq_true hys
    rw [target_taken T x hys, sending_taken]
    split
    · rfl
    · exact h.free y hyo
  · intro r' hr' hr'q
    by_cases hr's : r' = s
    · -- nobody waited for the process that has just been released
      subst hr's
      have hnil : sendersOf T order r' = [] := by
        refine List.eq_nil_iff_forall_not_mem.mpr (fun y hy => ?_)
        obtain ⟨hyo, hyr⟩ := mem_sendersOf.mp hy
        have hfree := h.free y hyo
        rw [hyr] at hfree
        exact hsend hs hfree
      rw [QueueOf, sendersOf_taken, hnil, qLink_taken, if_pos rfl]
      rfl
    · rw [sending_taken, if_neg hr's] at hr'q
      by_cases hrr : r' = r
      · subst hrr
        exact queueOf_taken_self h.blocked hrq (h.queue r' hr' hrq) hs hx
      · refine queueOf_taken_of_ne hr's ?_ ?_ ?_ (h.queue r' hr' hr'q)
        · rintro rfl
          rcases hxr with heq | ⟨hmem, -⟩
          · exact hrr heq
          · exact hsend (mem_sendersOf.mp hmem).1 hr'q
        · intro hmem
          exact hrr ((mem_sendersOf.mp hmem).2.symm.trans hto)
        · intro hmem
          rcases hxr with heq | ⟨hmem', -⟩
          · exact hsend (mem_sendersOf.mp hmem).1 (heq ▸ hrq)
          · exact hrr ((mem_sendersOf.mp hmem).2.symm.trans
              (mem_sendersOf.mp hmem').2)

/-! ## Runs -/

/-- The sender that a receive takes is one of the queue. -/
theorem mem_order_of_rcvdFrom {fuel : Nat} {T T' : Table} {order : List Int}
    {r src s x : Int} {m m' : Addr} {w : List Write} (h : Queues T order)
    (hr : InTable r) (hsrc : IsSource src)
    (hfake : NoFakeSender T (.rcv r src m'))
    (hf : RcvdFrom fuel T r src m s x T' w) : s ∈ order := by
  have hsend : (T s).procState.sending = true := by rw [hf.sender]; rfl
  have hrq : (T r).procState.sending = false := by rw [hf.idle]; rfl
  rcases hf.choice with ⟨-, hhead⟩ | ⟨hany, rfl, -⟩
  · have hq := h.queue r hr hrq
    rw [QueueOf, qLink, hhead] at hq
    obtain ⟨l, hl, -⟩ := links_some hq
    have hmem : s ∈ sendersOf T order r := by rw [hl]; simp
    exact (mem_sendersOf.mp hmem).1
  · rcases hsrc with hin | heq | rfl
    · exact (h.blocked.mem src).mpr ⟨hin, hsend⟩
    · exact absurd heq hany
    · exact absurd ⟨hsend, hf.target⟩ (hfake rfl)

/-- The target of a process in the order is an entry of `proc_table`. -/
theorem target_inTable {T : Table} {order : List Int} {s : Int}
    (hsane : Sane T) (hb : BlockedInOrder T order) (hs : s ∈ order) :
    InTable (T s).pidSendingto := by
  obtain ⟨hin, hsend⟩ := (hb.mem s).mp hs
  exact hsane.target s _ (waitsFor_eq_some.mpr ⟨hin, hsend, rfl⟩)

/-- **STEP**: a flat call keeps the queues. -/
theorem queues_step {T T' : Table} {order : List Int} {e : Event}
    (hsane : Sane T) (h : Queues T order) (hfake : NoFakeSender T e)
    (hfree : BlocksFree T e) (hstep : Step T e T') :
    Queues T' (orderAfter T' e order) := by
  have hb' := blockedInOrder_step h.blocked hstep
  rcases step_cases hstep with hquiet | ⟨s, r, m, w, rfl, hne, hblk⟩ |
      ⟨fuel, r, src, m, s, x, w, rfl, hr, hsrc, hf⟩
  · rw [orderAfter_quiet h.blocked hquiet hstep] at hb' ⊢
    refine ⟨hb', fun s hs => ?_, fun r hr hrq => ?_⟩
    · obtain ⟨hin, hsend⟩ := (h.blocked.mem s).mp hs
      rw [hquiet.target s hin hsend,
        hquiet.sending _ (target_inTable hsane h.blocked hs)]
      exact h.free s hs
    · rw [hquiet.sending r hr] at hrq
      exact queueOf_quiet h.blocked hquiet hr (h.queue r hr hrq)
  · obtain ⟨hs, hr, hidle⟩ := caller_of_send hstep
    obtain ⟨hsq, hrq⟩ := hfree hblk.notWaiting
    obtain ⟨t, l, hl, rfl⟩ := hblk.table
    rw [← behind, orderAfter_behind h.blocked] at hb' ⊢
    exact queues_behind h hs hidle hr hne hsq hrq hl hb'
  · have hrq : (T r).procState.sending = false := by rw [hf.idle]; rfl
    have hs := mem_order_of_rcvdFrom h hr hsrc hfake hf
    have hx := redirected_cell hf (h.queue r hr hrq) hs
    have htab : T' = taken T s x := hf.table
    rw [htab, orderAfter_taken h.blocked] at hb' ⊢
    exact queues_taken h hr hrq hs hf.target hx hb'

/-- No queue is longer than one sender. -/
def Short (T : Table) (order : List Int) : Prop :=
  ∀ s ∈ order, qLink T s = none

/-- Who blocks first keeps the queues short. -/
theorem short_step {T T' : Table} {order : List Int} {e : Event}
    (h : Queues T order) (hshort : Short T order) (hfake : NoFakeSender T e)
    (hfree : BlocksFree T e) (hfirst : BlocksFirst T e)
    (hstep : Step T e T') : Short T' (orderAfter T' e order) := by
  rcases step_cases hstep with hquiet | ⟨s, r, m, w, rfl, hne, hblk⟩ |
      ⟨fuel, r, src, m, s, x, w, rfl, hr, hsrc, hf⟩
  · rw [orderAfter_quiet h.blocked hquiet hstep]
    intro y hy
    rw [hquiet.link y ((h.blocked.mem y).mp hy).1]
    exact hshort y hy
  · obtain ⟨-, hr, -⟩ := caller_of_send hstep
    have hrq := (hfree hblk.notWaiting).2
    have hrl : qLink T r = none := hfirst hblk.notWaiting
    obtain ⟨t, l, hl, rfl⟩ := hblk.table
    have hlast := last_cell (h.queue r hr hrq) hl
    rw [sendersOf_eq_nil (h.queue r hr hrq) hrl] at hlast
    have htr : t = r := by
      have hmem : t ∈ [r] := by rw [hlast]; simp
      exact List.mem_singleton.mp hmem
    rw [← behind, orderAfter_behind h.blocked]
    intro y hy
    rw [qLink_behind]
    split
    · rfl
    · rename_i hys
      have hyo : y ∈ order := by
        rcases List.mem_append.mp hy with hy | hy
        · exact hy
        · exact absurd (List.mem_singleton.mp hy) hys
      have hyt : y ≠ t := by
        rintro rfl
        exact sending_of_mem h.blocked hyo (htr ▸ hrq)
      rw [if_neg hyt]
      exact hshort y hyo
  · have hs := mem_order_of_rcvdFrom h hr hsrc hfake hf
    have htab : T' = taken T s x := hf.table
    rw [htab, orderAfter_taken h.blocked]
    intro y hy
    have hyo := (List.mem_filter.mp hy).1
    rw [qLink_taken]
    split
    · rfl
    · split
      · exact hshort s hs
      · exact hshort y hyo

/-- The invariant for every process, in terms of the one for the processes
    that are not SENDING. -/
theorem allQueues_iff {T : Table} {order : List Int} (hsane : Sane T) :
    AllQueues T order ↔ Queues T order ∧ Short T order := by
  constructor
  · intro h
    have hempty : ∀ r ∈ order,
        sendersOf T order r = [] ∧ qLink T r = none := by
      intro r hr
      obtain ⟨hin, hsend⟩ := (h.blocked.mem r).mp hr
      -- the chain of r's receiver runs on through r's own senders
      have hq := h.queue _ (target_inTable hsane h.blocked hr)
      have hmem : r ∈ sendersOf T order (T r).pidSendingto :=
        mem_sendersOf.mpr ⟨hr, rfl⟩
      obtain ⟨l₁, l₂, hl⟩ := List.append_of_mem hmem
      have hnd : (sendersOf T order (T r).pidSendingto).Nodup :=
        h.blocked.nodup.filter _
      rw [QueueOf, hl] at hq
      have hown := h.queue r hin
      have heq : sendersOf T order r = l₂ :=
        links_unique hown (links_suffix hq)
      have hnil : sendersOf T order r = [] := by
        refine List.eq_nil_iff_forall_not_mem.mpr (fun y hy => ?_)
        have hy₂ : y ∈ sendersOf T order (T r).pidSendingto := by
          rw [hl]
          simp [heq ▸ hy]
        have hself : (T r).pidSendingto = r :=
          (mem_sendersOf.mp hy₂).2.symm.trans (mem_sendersOf.mp hy).2
        rw [hl] at hnd
        rw [hself, ← heq] at hl
        exact absurd (congrArg List.length hl) (by simp; omega)
      refine ⟨hnil, ?_⟩
      rw [QueueOf, hnil] at hown
      exact hown
    refine ⟨⟨h.blocked, fun s hs => ?_, fun r hr _ => h.queue r hr⟩,
      fun s hs => (hempty s hs).2⟩
    by_contra hsend
    have hto := target_inTable hsane h.blocked hs
    have hmem : (T s).pidSendingto ∈ order :=
      (h.blocked.mem _).mpr ⟨hto, by simpa using hsend⟩
    have hs' : s ∈ sendersOf T order (T s).pidSendingto :=
      mem_sendersOf.mpr ⟨hs, rfl⟩
    rw [(hempty _ hmem).1] at hs'
    cases hs'
  · rintro ⟨h, hshort⟩
    refine ⟨h.blocked, fun r hr => ?_⟩
    by_cases hrq : (T r).procState.sending = false
    · exact h.queue r hr hrq
    · have hro : r ∈ order := (h.blocked.mem r).mpr ⟨hr, by simpa using hrq⟩
      have hnil : sendersOf T order r = [] := by
        refine List.eq_nil_iff_forall_not_mem.mpr (fun y hy => ?_)
        obtain ⟨hyo, hyr⟩ := mem_sendersOf.mp hy
        have hfree := h.free y hyo
        rw [hyr] at hfree
        exact hrq hfree
      rw [QueueOf, hnil, hshort r hro]
      rfl

/-- At boot the queues are empty. -/
theorem allQueues_boot {σ : Run} (h : Boot σ) :
    Sane σ.table ∧ AllQueues σ.table σ.order := by
  obtain ⟨T, order⟩ := σ
  obtain ⟨hT, rfl⟩ := h
  obtain ⟨kTop, outside, rfl⟩ := hT
  refine ⟨sane_booted ⟨kTop, outside, rfl⟩, ⟨List.nodup_nil, fun s => ?_⟩,
    fun r hr => ?_⟩
  · constructor
    · intro hs; cases hs
    · rintro ⟨hs, hsend⟩
      rw [initProcess_sending kTop outside hs] at hsend
      cases hsend
  · exact (initProcess_idle kTop outside hr).2.1

/-- **RUN**, processes that are not SENDING. -/
theorem queues_reach {σ : Run} (h : Reach Boot RunStep Flat σ) :
    Sane σ.table ∧ Queues σ.table σ.order := by
  refine reach_invariant
    (fun σ => Sane σ.table ∧ Queues σ.table σ.order) ?_ ?_ h
  · intro σ hσ
    obtain ⟨hsane, hall⟩ := allQueues_boot hσ
    exact ⟨hsane, ((allQueues_iff hsane).mp hall).1⟩
  · rintro σ e σ' ⟨hsane, hq⟩ hg ⟨hstep, horder⟩
    rw [horder]
    exact ⟨sane_step hsane hstep, queues_step hsane hq hg.1 hg.2 hstep⟩

/-- **RUN**, every process. -/
theorem allQueues_reach {σ : Run} (h : Reach Boot RunStep Single σ) :
    Sane σ.table ∧ AllQueues σ.table σ.order := by
  refine reach_invariant
    (fun σ => Sane σ.table ∧ AllQueues σ.table σ.order) ?_ ?_ h
  · exact fun σ hσ => allQueues_boot hσ
  · rintro σ e σ' ⟨hsane, hall⟩ ⟨⟨hfake, hfree⟩, hfirst⟩ ⟨hstep, horder⟩
    have hsane' := sane_step hsane hstep
    obtain ⟨hq, hshort⟩ := (allQueues_iff hsane).mp hall
    rw [horder]
    exact ⟨hsane', (allQueues_iff hsane').mpr
      ⟨queues_step hsane hq hfake hfree hstep,
        short_step hq hshort hfake hfree hfirst hstep⟩⟩

/-- A send that blocks and keeps the invariant for every process met the
    condition. -/
theorem single_of_allQueues {T T' : Table} {order : List Int} {e : Event}
    (hsane : Sane T) (h : AllQueues T order) (hstep : Step T e T')
    (h' : AllQueues T' (orderAfter T' e order)) :
    BlocksFree T e ∧ BlocksFirst T e := by
  cases e with
  | rcv _ _ _ | hwInt _ | outside => exact ⟨trivial, trivial⟩
  | send s r m =>
      obtain ⟨hs, hr, hidle⟩ := caller_of_send hstep
      obtain ⟨hq', hshort'⟩ := (allQueues_iff (sane_step hsane hstep)).mp h'
      suffices hblock : ¬ IsWaitingFor T r s →
          ((T s).qPendingProc = none ∧ (T r).procState.sending = false) ∧
            (T r).qPendingProc = none from
        ⟨fun hw => (hblock hw).1, fun hw => (hblock hw).2⟩
      intro hw
      cases hstep with
      | send _ _ _ hcall =>
          obtain ⟨hne, -, hdir | hblk⟩ := kernelMsgSend_cases hcall
          · exact absurd hdir.waiting hw
          · obtain ⟨t, l, hl, rfl⟩ := hblk.table
            rw [← behind] at hq' hshort'
            rw [orderAfter_behind h.blocked] at hq' hshort'
            have hrq : (T r).procState.sending = false := by
              have hfree := hq'.free s (by simp)
              rwa [target_behind, if_pos rfl, sending_behind,
                if_neg hne.symm] at hfree
            have hnil : sendersOf T order s = [] := by
              refine List.eq_nil_iff_forall_not_mem.mpr (fun y hy => ?_)
              obtain ⟨hyo, hys⟩ := mem_sendersOf.mp hy
              have hyne : y ≠ s := by
                rintro rfl
                exact sending_of_mem h.blocked hyo hidle
              have hfree := hq'.free y (by simp [hyo])
              rw [target_behind, if_neg hyne, hys, sending_behind,
                if_pos rfl] at hfree
              cases hfree
            have hsl : qLink T s = none := by
              have hown := h.queue s hs
              rw [QueueOf, hnil] at hown
              exact hown
            refine ⟨⟨hsl, hrq⟩, ?_⟩
            by_contra hrl
            have hqr := h.queue r hr
            have hlast := last_cell hqr hl
            have ht : t ∈ sendersOf T order r := by
              have hmem : t ∈ r :: sendersOf T order r := by
                rw [hlast]; simp
              rcases List.mem_cons.mp hmem with rfl | hmem
              · -- the last cell is the receiver's own: its queue is empty
                cases l with
                | nil => exact absurd hl.2 hrl
                | cons a l =>
                    have hat : t = a := (List.cons.inj hlast).1
                    have hnd := links_nodup hl
                    rw [hat] at hnd
                    simp at hnd
              · exact hmem
            have hto := (mem_sendersOf.mp ht).1
            have hts : t ≠ s := by
              rintro rfl
              exact sending_of_mem h.blocked hto hidle
            have hlink := hshort' t (by simp [hto])
            rw [qLink_behind, if_neg hts, if_pos rfl] at hlink
            cases hlink

/-- **THE SENDING QUEUES**: in a run whose calls are `Single` every process
    heads the chain of exactly its senders, and a call keeps this if and only
    if it is `Single`; in a run whose calls are only `Flat` the same holds of
    every process that is not SENDING, and nobody waits for one that is. -/
theorem sendQueue_exact (σ : Run) :
    (Reach Boot RunStep Single σ → AllQueues σ.table σ.order ∧
      ∀ e σ', RunStep σ e σ' → NoFakeSender σ.table e →
        (AllQueues σ'.table σ'.order ↔ Single σ e)) ∧
      (Reach Boot RunStep Flat σ → Queues σ.table σ.order) := by
  refine ⟨fun h => ?_, fun h => (queues_reach h).2⟩
  obtain ⟨hsane, hall⟩ := allQueues_reach h
  refine ⟨hall, fun e σ' hstep hfake => ?_⟩
  constructor
  · intro h'
    rw [hstep.2] at h'
    obtain ⟨hfree, hfirst⟩ := single_of_allQueues hsane hall hstep.1 h'
    exact ⟨⟨hfake, hfree⟩, hfirst⟩
  · intro hg
    exact (allQueues_reach (.next h hg hstep)).2

/-- One sender on INIT, and a second one behind it. -/
theorem sendQueue_exact_two :
    let T₀ := initProcess 0 fun _ => freeProc
    AllQueues (behind T₀ 6 5 5 1) [6] ∧
      Queues (behind (behind T₀ 6 5 5 1) 7 5 6 1) [6, 7] := by
  intro T₀
  have hboot : Boot ⟨T₀, []⟩ := ⟨⟨0, fun _ => freeProc, rfl⟩, rfl⟩
  have hcall : kernelMsgSend 1 T₀ 6 5 1 = .ok (behind T₀ 6 5 5 1, []) := rfl
  have hcall' : kernelMsgSend 1 (behind T₀ 6 5 5 1) 7 5 1 =
      .ok (behind (behind T₀ 6 5 5 1) 7 5 6 1, []) := rfl
  have hone : RunStep ⟨T₀, []⟩ (.send 6 5 1) ⟨behind T₀ 6 5 5 1, [6]⟩ :=
    ⟨.send (by decide) (by decide) (by decide) hcall, rfl⟩
  have htwo : RunStep ⟨behind T₀ 6 5 5 1, [6]⟩ (.send 7 5 1)
      ⟨behind (behind T₀ 6 5 5 1) 7 5 6 1, [6, 7]⟩ :=
    ⟨.send (by decide) (by decide) (by decide) hcall', rfl⟩
  have hflat : Flat ⟨T₀, []⟩ (.send 6 5 1) := ⟨trivial, fun _ => ⟨rfl, rfl⟩⟩
  have hflat' : Flat ⟨behind T₀ 6 5 5 1, [6]⟩ (.send 7 5 1) :=
    ⟨trivial, fun _ => ⟨rfl, rfl⟩⟩
  have hsingle : Single ⟨T₀, []⟩ (.send 6 5 1) := ⟨hflat, fun _ => rfl⟩
  exact ⟨((sendQueue_exact _).1 (.next (.start hboot) hsingle hone)).1,
    (sendQueue_exact _).2 (.next (.next (.start hboot) hflat hone) hflat' htwo)⟩

/-- Process 7 blocks on 6, then 6 blocks on INIT: 7 is still SENDING to 6 and
    is in no queue at all. -/
theorem sendQueue_drops_sender :
    ∃ σ, Reach Boot RunStep free σ ∧
      (σ.table 7).procState = SENDING ∧ (σ.table 7).pidSendingto = 6 ∧
      (∀ r, InTable r → qLink σ.table r ≠ some 7) ∧
      ¬ AllQueues σ.table σ.order := by
  let T₀ := initProcess 0 fun _ => freeProc
  have hboot : Boot ⟨T₀, []⟩ := ⟨⟨0, fun _ => freeProc, rfl⟩, rfl⟩
  have hcall : kernelMsgSend 1 T₀ 7 6 1 = .ok (behind T₀ 7 6 6 1, []) := rfl
  have hcall' : kernelMsgSend 1 (behind T₀ 7 6 6 1) 6 5 1 =
      .ok (behind (behind T₀ 7 6 6 1) 6 5 5 1, []) := rfl
  have hone : RunStep ⟨T₀, []⟩ (.send 7 6 1) ⟨behind T₀ 7 6 6 1, [7]⟩ :=
    ⟨.send (by decide) (by decide) (by decide) hcall, rfl⟩
  have htwo : RunStep ⟨behind T₀ 7 6 6 1, [7]⟩ (.send 6 5 1)
      ⟨behind (behind T₀ 7 6 6 1) 6 5 5 1, [7, 6]⟩ :=
    ⟨.send (by decide) (by decide) (by decide) hcall', rfl⟩
  refine ⟨_, .next (.next (.start hboot) trivial hone) trivial htwo, by decide,
    by decide, ?_, ?_⟩
  · intro r hr
    have hidle : qLink T₀ r = none := (initProcess_idle _ _ hr).2.1
    simp only [qLink_behind, hidle]
    split_ifs <;> simp
  · intro h
    obtain ⟨hlink, -⟩ := h.queue 6 (by decide)
    rw [qLink_behind, if_pos rfl] at hlink
    cases hlink

end KosSendQueue
