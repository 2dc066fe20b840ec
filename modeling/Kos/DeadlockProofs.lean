import Kos.IpcProofs
import Kos.WaitGraphProofs
import Mathlib.Order.Interval.Finset.Basic
import Mathlib.Data.Int.Interval

/-! # Deadlock detection

    The graph with an edge from every SENDING process to its receiver.

    * one step keeps SENDING processes aimed into the table with a message at
      hand, and keeps the graph acyclic (`sane_step`);
    * on such a table `check_deadlock` is the search of `WaitGraph`
      (`checkDeadlock_eq_probe`), so it ends and its answer is exact
      (`checkDeadlock_exact`). -/

namespace KosDeadlock

open FlatMemory KosKernel KosIpc WaitGraph GuardedRun

/-- The edge of a SENDING process. -/
def waitsFor (T : Table) (s : Int) : Option Int :=
  if InTable s ∧ (T s).procState.sending = true then some (T s).pidSendingto
  else none

theorem waitsFor_eq_some {T : Table} {s r : Int} :
    waitsFor T s = some r ↔
      InTable s ∧ (T s).procState.sending = true ∧ (T s).pidSendingto = r := by
  unfold waitsFor
  by_cases h : InTable s ∧ (T s).procState.sending = true
  · rw [if_pos h, Option.some.injEq]
    exact ⟨fun hr => ⟨h.1, h.2, hr⟩, fun hr => hr.2.2⟩
  · rw [if_neg h]
    constructor
    · intro hr; cases hr
    · intro hr; exact absurd ⟨hr.1, hr.2.1⟩ h

/-- What a step keeps of the table. -/
structure Sane (T : Table) : Prop where
  target : ∀ s r, waitsFor T s = some r → InTable r
  message : ∀ s r, waitsFor T s = some r → (T s).pendingMsg ≠ 0
  acyclic : Acyclic (waitsFor T)

/-! ## `check_deadlock` is a search -/

/-- The report of a chain that was found succeeds. -/
theorem printChain_of_probe {T : Table} (h : Sane T) {s : Int} :
    ∀ {n : Nat} {p : Int}, probe (waitsFor T) s n p = some true →
      printChain T s n p = .ok () := by
  intro n
  induction n with
  | zero => intro p hp; cases hp
  | succ n ih =>
      intro p hp
      cases hw : waitsFor T p with
      | none => rw [probe, hw] at hp; cases hp
      | some q =>
          have hmsg : (T p).pendingMsg ≠ 0 := h.message p q hw
          obtain ⟨-, -, hto⟩ := waitsFor_eq_some.mp hw
          rw [probe, hw] at hp
          rw [printChain, bind_eq_ok]
          refine ⟨(), assert_eq_ok.mpr hmsg, ?_⟩
          by_cases hq : q = s
          · rw [if_pos (hto.trans hq)]
            rfl
          · simp only [hq, if_false] at hp
            rw [hto, if_neg hq]
            exact ih hp

/-- The search loop, step for step. -/
theorem checkDeadlockLoop_eq_probe {T : Table} (h : Sane T) {s : Int}
    {print : Except Halt Unit} :
    ∀ {n : Nat} {p : Int}, InTable p →
      checkDeadlockLoop T s print n p =
        match probe (waitsFor T) s n p with
        | none => .error .spin
        | some true => print >>= fun _ => pure true
        | some false => pure false := by
  intro n
  induction n with
  | zero => intro p _; rfl
  | succ n ih =>
      intro p hp
      by_cases hsend : (T p).procState.sending = true
      · have hw : waitsFor T p = some (T p).pidSendingto :=
          waitsFor_eq_some.mpr ⟨hp, hsend, rfl⟩
        rw [checkDeadlockLoop, if_pos hsend, probe, hw]
        by_cases hq : (T p).pidSendingto = s
        · simp only [if_pos hq]
        · simp only [if_neg hq]
          exact ih (h.target p _ hw)
      · have hw : waitsFor T p = none := by
          rw [waitsFor, if_neg (fun hc => hsend hc.2)]
        rw [checkDeadlockLoop, if_neg hsend, probe, hw]

/-- `check_deadlock` answers what the search along the edges answers. -/
theorem checkDeadlock_eq_probe {T : Table} (h : Sane T) {s r : Int}
    {fuel : Nat} (hr : InTable r) :
    checkDeadlock fuel T s r =
      match probe (waitsFor T) s fuel r with
      | none => .error .spin
      | some b => pure b := by
  rw [checkDeadlock, checkDeadlockLoop_eq_probe h hr]
  cases hb : probe (waitsFor T) s fuel r with
  | none => rfl
  | some b =>
      cases b with
      | false => rfl
      | true => rw [printChain_of_probe h hb]; rfl

/-- A negative answer rules a chain back to the caller out. -/
theorem not_leads_of_checkDeadlock {T : Table} (h : Sane T) {s r : Int}
    {fuel : Nat} (hr : InTable r)
    (hcall : checkDeadlock fuel T s r = .ok false) :
    ¬ Leads (waitsFor T) r s := by
  rw [checkDeadlock_eq_probe h hr] at hcall
  cases hb : probe (waitsFor T) s fuel r with
  | none => rw [hb] at hcall; cases hcall
  | some b =>
      rw [hb] at hcall
      obtain rfl : b = false := pure_eq_ok.mp hcall
      exact probe_false hb

/-- **TERMINATION**: fuel for every entry of the table is enough. -/
theorem probe_table {T : Table} (h : Sane T) {s r : Int} (hr : InTable r) :
    ∃ b, ∀ fuel ≥ 37, probe (waitsFor T) s fuel r = some b := by
  have hmem : ∀ q, InTable q → q ∈ Finset.Icc (0 : Int) 36 := by
    intro q hq
    rw [inTable_iff] at hq
    rw [Finset.mem_Icc]
    omega
  have hin : ∀ q, Leads (waitsFor T) r q → InTable q := by
    intro q hq
    obtain ⟨c, -, hc⟩ := Relation.TransGen.tail'_iff.mp hq
    exact h.target c q hc
  obtain ⟨b, hb⟩ := probe_terminates (n := 37) h.acyclic (hmem r hr)
    (fun q hq => hmem q (hin q hq)) (by simp)
  exact ⟨b, fun fuel hfuel => probe_mono hfuel hb⟩

/-! ## Steps keep the table sane -/

/-- A table with no new edges and the same messages on its edges is sane. -/
theorem sane_of_sub {T T' : Table}
    (hsub : ∀ s r, waitsFor T' s = some r →
      waitsFor T s = some r ∧ (T' s).pendingMsg = (T s).pendingMsg)
    (h : Sane T) : Sane T' where
  target s r hw := h.target s r (hsub s r hw).1
  message s r hw := by
    obtain ⟨hold, hmsg⟩ := hsub s r hw
    rw [hmsg]
    exact h.message s r hold
  acyclic := acyclic_of_sub (fun s r hw => (hsub s r hw).1) h.acyclic

/-- What an entry says about its edge. -/
def edge (p : Proc) : Option (Int × Addr) :=
  if p.procState.sending then some (p.pidSendingto, p.pendingMsg) else none

/-- Entry by entry: each edge of the new table is there already. -/
theorem sane_of_edge {T T' : Table}
    (hsub : ∀ s, InTable s → edge (T' s) = none ∨ edge (T' s) = edge (T s))
    (h : Sane T) : Sane T' := by
  refine sane_of_sub (fun s r hw => ?_) h
  obtain ⟨hs, hsend, hto⟩ := waitsFor_eq_some.mp hw
  have hnew : edge (T' s) = some (r, (T' s).pendingMsg) := by
    rw [edge, if_pos hsend, hto]
  rcases hsub s hs with hnone | heq
  · cases hnew.symm.trans hnone
  · rw [hnew, edge] at heq
    by_cases hold : (T s).procState.sending = true
    · rw [if_pos hold, Option.some.injEq, Prod.mk.injEq] at heq
      exact ⟨waitsFor_eq_some.mpr ⟨hs, hold, heq.1.symm⟩, heq.2⟩
    · rw [if_neg hold] at heq
      cases heq

/-- An entry that does not send before or after an update of its own has no
    edge. -/
theorem edge_upd {T : Table} {p : Int} {f : Proc → Proc}
    (hf : (f (T p)).procState.sending = false) (s : Int) :
    edge (T.upd p f s) = none ∨ edge (T.upd p f s) = edge (T s) := by
  by_cases hsp : s = p
  · subst hsp
    exact Or.inl (by rw [upd_self, edge, hf]; rfl)
  · exact Or.inr (by rw [upd_of_ne T f hsp])

@[simp] theorem edge_setLink (T : Table) (p s : Int) (q : Option Int) :
    edge (setLink T p q s) = edge (T s) := by
  by_cases h : s = p
  · subst h; rw [setLink_self]; rfl
  · rw [setLink_of_ne T q h]

/-- The edge that blocking adds. -/
theorem waitsFor_block_self (T : Table) {s : Int} (r : Int) (m : Addr)
    (hs : InTable s) :
    waitsFor (T.upd s (blockedSending r m)) s = some r := by
  rw [waitsFor_eq_some, upd_self]
  exact ⟨hs, rfl, rfl⟩

theorem waitsFor_block_of_ne (T : Table) {s a : Int} (r : Int) (m : Addr)
    (ha : a ≠ s) :
    waitsFor (T.upd s (blockedSending r m)) a = waitsFor T a := by
  simp only [waitsFor, upd_of_ne T _ ha]

/-- Blocking closes no cycle unless the receiver's waits lead back. -/
theorem acyclic_block {T : Table} {s r : Int} (m : Addr)
    (h : Acyclic (waitsFor T)) (hs : InTable s) (hne : s ≠ r)
    (hback : ¬ Leads (waitsFor T) r s) :
    Acyclic (waitsFor (T.upd s (blockedSending r m))) :=
  acyclic_insert (waitsFor_block_self T r m hs)
    (fun _ ha => waitsFor_block_of_ne T r m ha) hne hback h

/-- Blocking a sender with a message on an entry keeps the table sane. -/
theorem sane_block {T : Table} {s r : Int} {m : Addr} (h : Sane T)
    (hs : InTable s) (hr : InTable r) (hne : s ≠ r) (hm : m ≠ 0)
    (hback : ¬ Leads (waitsFor T) r s) :
    Sane (T.upd s (blockedSending r m)) := by
  have hself := waitsFor_block_self T r m hs
  refine ⟨?_, ?_, acyclic_block m h.acyclic hs hne hback⟩
  · intro a b hab
    by_cases ha : a = s
    · subst ha
      obtain rfl : r = b := Option.some.inj (hself.symm.trans hab)
      exact hr
    · exact h.target a b ((waitsFor_block_of_ne T r m ha).symm.trans hab)
  · intro a b hab
    by_cases ha : a = s
    · subst ha
      rw [upd_self]
      exact hm
    · rw [upd_of_ne T _ ha]
      exact h.message a b ((waitsFor_block_of_ne T r m ha).symm.trans hab)

theorem sane_setLink {T : Table} (h : Sane T) (p : Int) (q : Option Int) :
    Sane (setLink T p q) :=
  sane_of_edge (fun s _ => Or.inr (edge_setLink T p s q)) h

/-- A delivery makes no edge. -/
theorem edge_direct {T T' : Table} {s r : Int} {m : Addr} {w : List Write}
    (h : SentDirect T s r m T' w) (x : Int) :
    edge (T' x) = none ∨ edge (T' x) = edge (T x) := by
  rw [h.table]
  refine edge_upd ?_ x
  rw [delivered, h.receiver]
  rfl

/-- A receive makes no edge. -/
theorem edge_rcv {fuel : Nat} {T T' : Table} {r src : Int} {m : Addr}
    {w : List Write} (hcall : kernelMsgRcv fuel T r src m = .ok (T', w))
    (x : Int) : edge (T' x) = none ∨ edge (T' x) = edge (T x) := by
  obtain ⟨-, hint | ⟨-, ⟨s, y, hfrom⟩ | hblk⟩⟩ := kernelMsgRcv_cases hcall
  · rw [hint.table]
    exact edge_upd (by rw [hint.idle]; rfl) x
  · rw [hfrom.table, ← edge_setLink T y x (T s).qPendingProc,
      ← edge_setLink (setLink T y (T s).qPendingProc) s x none]
    exact edge_upd rfl x
  · rw [hblk.table]
    refine edge_upd ?_ x
    rw [blockedReceiving, hblk.others]
    rfl

/-- An interrupt makes no edge. -/
theorem edge_hwInt {T T' : Table} {p : Int} {w : List Write}
    (hcall : hwIntNotification T p = .ok (T', w)) (x : Int) :
    edge (T' x) = none ∨ edge (T' x) = edge (T x) := by
  rcases hwIntNotification_cases hcall with
    ⟨-, hst, rfl, -⟩ | ⟨-, rfl, -⟩
  · refine edge_upd ?_ x
    rw [interrupted, hst]
    rfl
  · by_cases hx : x = p
    · subst hx
      exact Or.inr (by rw [upd_self]; rfl)
    · exact Or.inr (by rw [upd_of_ne T _ hx])

/-- Only a send that blocks makes an edge. -/
theorem edge_step {T T' : Table} {e : Event} (hstep : Step T e T') :
    (∀ x, InTable x → edge (T' x) = none ∨ edge (T' x) = edge (T x)) ∨
      ∃ s r m w, e = .send s r m ∧ SentBlocked T s r m T' w := by
  cases hstep with
  | send _ _ _ hcall =>
      obtain ⟨-, -, hdir | hblk⟩ := kernelMsgSend_cases hcall
      · exact Or.inl (fun x _ => edge_direct hdir x)
      · exact Or.inr ⟨_, _, _, _, rfl, hblk⟩
  | rcv _ _ _ hcall => exact Or.inl (fun x _ => edge_rcv hcall x)
  | hwInt _ hcall => exact Or.inl (fun x _ => edge_hwInt hcall x)
  | outside hin => exact Or.inl (fun x hx => Or.inr (by rw [hin x hx]))

/-- **STEP**: no call makes a cycle. -/
theorem sane_step {T T' : Table} {e : Event} (h : Sane T)
    (hstep : Step T e T') : Sane T' := by
  rcases edge_step hstep with hsub | ⟨s, r, m, w, rfl, hblk⟩
  · exact sane_of_edge hsub h
  · cases hstep with
    | send hs _ hr hcall =>
        obtain ⟨hne, hdl, -⟩ := kernelMsgSend_cases hcall
        obtain ⟨t, l, -, rfl⟩ := hblk.table
        have hback := not_leads_of_checkDeadlock h hr hdl
        exact sane_setLink
          (sane_setLink (sane_block h hs hr hne hblk.message hback) t _) s _

/-- At boot nobody sends. -/
theorem sane_booted {T : Table} (h : Booted T) : Sane T := by
  obtain ⟨kTop, outside, rfl⟩ := h
  have hnone : ∀ s, waitsFor (initProcess kTop outside) s = none := by
    intro s
    rw [waitsFor, if_neg]
    rintro ⟨hs, hsend⟩
    rw [initProcess_sending kTop outside hs] at hsend
    cases hsend
  refine ⟨?_, ?_, fun s hs => not_leads_of_none (hnone s) hs⟩
  · intro s r hw; cases (hnone s).symm.trans hw
  · intro s r hw; cases (hnone s).symm.trans hw

/-- **RUN**: every table that calls reach is sane. -/
theorem sane_reach {T : Table} (h : Reach Booted Step free T) : Sane T :=
  reach_invariant Sane (fun _ => sane_booted)
    (fun _ _ _ hT _ hstep => sane_step hT hstep) h

/-- **DEADLOCK DETECTION IS EXACT**: in every reachable table the wait-for
    graph has no cycle; `check_deadlock(s, r)` ends, answers 1 exactly when
    the waits of `r` lead to `s`, and after the answer 0 the caller can block
    on `r` without closing a cycle. -/
theorem checkDeadlock_exact {T : Table} (h : Reach Booted Step free T) :
    Acyclic (waitsFor T) ∧
      ∀ s r, InTable s → (T s).procState.sending = false → InTable r →
        ∃ b, (∀ fuel ≥ 37, checkDeadlock fuel T s r = .ok b) ∧
          (b = true ↔ Leads (waitsFor T) r s) ∧
          (b = false → s ≠ r → ∀ m,
            Acyclic (waitsFor (T.upd s (blockedSending r m)))) := by
  have hsane : Sane T := sane_reach h
  refine ⟨hsane.acyclic, ?_⟩
  intro s r hs _ hr
  obtain ⟨b, hb⟩ := probe_table hsane (s := s) hr
  refine ⟨b, ?_, ?_, ?_⟩
  · intro fuel hfuel
    rw [checkDeadlock_eq_probe hsane hr, hb fuel hfuel]
    rfl
  · constructor
    · rintro rfl; exact probe_true (hb 37 (Nat.le_refl 37))
    · intro hl
      cases b with
      | true => rfl
      | false => exact absurd hl (probe_false (hb 37 (Nat.le_refl 37)))
  · rintro rfl hne m
    have hback := probe_false (hb 37 (Nat.le_refl 37))
    exact acyclic_block m hsane.acyclic hs hne hback

/-- Two processes of a freshly booted kernel, one blocked on the other. -/
theorem checkDeadlock_exact_blocked :
    ∃ T, (T 5).procState.sending = true ∧
      Acyclic (waitsFor T) ∧
      ∀ s r, InTable s → (T s).procState.sending = false → InTable r →
        ∃ b, (∀ fuel ≥ 37, checkDeadlock fuel T s r = .ok b) ∧
          (b = true ↔ Leads (waitsFor T) r s) ∧
          (b = false → s ≠ r → ∀ m,
            Acyclic (waitsFor (T.upd s (blockedSending r m)))) := by
  let T₀ := initProcess 0 fun _ => freeProc
  let T₁ := setLink (setLink (T₀.upd 5 (blockedSending 6 1)) 6 (some 5)) 5 none
  have hcall : kernelMsgSend 1 T₀ 5 6 1 = .ok (T₁, []) := rfl
  have hreach : Reach Booted Step free T₁ :=
    .next (.start ⟨0, _, rfl⟩) trivial
      (.send (by decide) (by decide) (by decide) hcall)
  exact ⟨T₁, by decide, checkDeadlock_exact hreach⟩

end KosDeadlock
