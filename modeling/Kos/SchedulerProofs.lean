import Kos.KernelProofs
import Mathlib.Data.List.FinRange

/-! # The scheduler

    `schedule` of `kernel/process.c`: a search for the first process with the
    most ticks left, which is repeated after a refill when nobody has any.

    * The search finds the first maximum among the processes that can run
      (`search_spec`);
    * with ticks that are not negative `schedule` returns if and only if some
      process that can run has ticks or a priority to be refilled with
      (`schedule_returns_iff`), and then within two passes
      (`schedule_picks`);
    * `clock_handler` leaves no negative ticks behind (`clock_ticks`). -/

namespace KosScheduler

open KosKernel

/-! ## The table -/

/-- What the scheduler reads of a process. -/
structure Proc where
  procState : ProcState
  ticks : Int
  priority : Int
  deriving DecidableEq

/-- The index of an entry, from `PROC_FIRST` to `PROC_LAST`. -/
abbrev Pid := Fin (NR_TASKS_NATIVE + NR_PROCS_MAX).toNat

/-- The table and the process that runs. -/
structure Sched where
  procTable : Pid → Proc
  /-- `p_proc_ready` -/
  pProcReady : Pid

/-- It may be picked. -/
def Runnable (T : Pid → Proc) (p : Pid) : Prop := (T p).procState = RUNNABLE

instance (T : Pid → Proc) (p : Pid) : Decidable (Runnable T p) :=
  inferInstanceAs (Decidable (_ = _))

/-! ## `schedule` -/

/-- The first loop, over the entries that are left: `greatest_ticks` and
    `p_proc_ready`. -/
def search (T : Pid → Proc) : List Pid → Int → Pid → Int × Pid
  | [], greatest, ready => (greatest, ready)
  | p :: ps, greatest, ready =>
      if Runnable T p then
        if (T p).ticks > greatest then search T ps (T p).ticks p
        else search T ps greatest ready
      else search T ps greatest ready

/-- The second loop. -/
def refill (T : Pid → Proc) : Pid → Proc := fun p =>
  if Runnable T p then { T p with ticks := (T p).priority } else T p

/-- `schedule`, in at most `n` passes of its `while`. -/
def schedule : Nat → Sched → Except Halt Sched
  | 0, _ => .error .spin
  | n + 1, s =>
      let (greatest, ready) :=
        search s.procTable (List.finRange _) 0 s.pProcReady
      if greatest = 0 then
        schedule n ⟨refill s.procTable, ready⟩
      else pure { s with pProcReady := ready }

/-! ## The search -/

section Search

variable {T : Pid → Proc} {ps : List Pid} {greatest : Int} {ready p : Pid}

/-- Without ticks above the greatest so far the search changes nothing. -/
theorem search_none (h : ∀ q ∈ ps, Runnable T q → (T q).ticks ≤ greatest) :
    search T ps greatest ready = (greatest, ready) := by
  induction ps with
  | nil => rfl
  | cons q ps ih =>
      have hq := h q List.mem_cons_self
      have hrest := ih fun r hr => h r (List.mem_cons_of_mem q hr)
      rw [search]
      split
      · rename_i hrun
        rw [if_neg (Int.not_lt.mpr (hq hrun)), hrest]
      · exact hrest

/-- The first process of the list that can run and has the most ticks. -/
structure FirstGreatest (T : Pid → Proc) (ps : List Pid) (p : Pid) : Prop where
  runnable : Runnable T p
  greatest : ∀ q ∈ ps, Runnable T q → (T q).ticks ≤ (T p).ticks
  first : ∃ before after, ps = before ++ p :: after ∧
    ∀ q ∈ before, Runnable T q → (T q).ticks < (T p).ticks

/-- **THE SEARCH** finds the first process with the most ticks, if it has more
    than the greatest so far. -/
theorem search_spec : ∀ {ps : List Pid} {greatest : Int} (ready : Pid),
    (∃ q ∈ ps, Runnable T q ∧ greatest < (T q).ticks) →
    ∃ p, search T ps greatest ready = ((T p).ticks, p) ∧
      greatest < (T p).ticks ∧ FirstGreatest T ps p := by
  intro ps
  induction ps with
  | nil =>
      rintro greatest ready ⟨q, hq, -⟩
      cases hq
  | cons r ps ih =>
      intro greatest ready hsome
      by_cases htake : Runnable T r ∧ (T r).ticks > greatest
      · obtain ⟨hrun, hmore⟩ := htake
        rw [search, if_pos hrun, if_pos hmore]
        by_cases hlater : ∃ q ∈ ps, Runnable T q ∧ (T r).ticks < (T q).ticks
        · obtain ⟨p, hp, hlt, hfirst⟩ := ih r hlater
          obtain ⟨before, after, rfl, hbefore⟩ := hfirst.first
          refine ⟨p, hp, by omega, hfirst.runnable, fun q hq hq' => ?_,
            r :: before, after, rfl, fun q hq hq' => ?_⟩
          · rcases List.mem_cons.mp hq with rfl | hq
            · exact Int.le_of_lt hlt
            · exact hfirst.greatest q hq hq'
          · rcases List.mem_cons.mp hq with rfl | hq
            · exact hlt
            · exact hbefore q hq hq'
        · -- nobody behind `r` has more, so `r` stays
          have hall : ∀ q ∈ ps, Runnable T q → (T q).ticks ≤ (T r).ticks :=
            fun q hq hq' => Int.not_lt.mp fun hlt => hlater ⟨q, hq, hq', hlt⟩
          refine ⟨r, search_none hall, hmore, hrun, fun q hq hq' => ?_,
            [], ps, rfl, fun q hq => by cases hq⟩
          rcases List.mem_cons.mp hq with rfl | hq
          · exact Int.le_refl _
          · exact hall q hq hq'
      · have hskip : search T (r :: ps) greatest ready =
            search T ps greatest ready := by
          rw [search]
          split
          · rename_i hrun
            exact if_neg fun hmore => htake ⟨hrun, hmore⟩
          · rfl
        have hsome' : ∃ q ∈ ps, Runnable T q ∧ greatest < (T q).ticks := by
          obtain ⟨q, hq, hrun, hlt⟩ := hsome
          rcases List.mem_cons.mp hq with rfl | hq
          · exact absurd ⟨hrun, hlt⟩ htake
          · exact ⟨q, hq, hrun, hlt⟩
        obtain ⟨p, hp, hlt, hfirst⟩ := ih ready hsome'
        obtain ⟨before, after, rfl, hbefore⟩ := hfirst.first
        have hr : Runnable T r → (T r).ticks < (T p).ticks := fun hrun =>
          Int.lt_of_le_of_lt (Int.not_lt.mp fun hm => htake ⟨hrun, hm⟩) hlt
        refine ⟨p, hskip.trans hp, hlt, hfirst.runnable, fun q hq hq' => ?_,
          r :: before, after, rfl, fun q hq hq' => ?_⟩
        · rcases List.mem_cons.mp hq with rfl | hq
          · exact Int.le_of_lt (hr hq')
          · exact hfirst.greatest q hq hq'
        · rcases List.mem_cons.mp hq with rfl | hq
          · exact hr hq'
          · exact hbefore q hq hq'

end Search

/-! ## What is picked -/

/-- The first process that can run and has the most ticks, more than none. -/
structure Picked (T : Pid → Proc) (p : Pid) : Prop where
  runnable : Runnable T p
  positive : 0 < (T p).ticks
  greatest : ∀ q, Runnable T q → (T q).ticks ≤ (T p).ticks
  first : ∀ q < p, Runnable T q → (T q).ticks < (T p).ticks

section Passes

variable {T : Pid → Proc} {s t : Sched} {p : Pid}

theorem runnable_refill : Runnable (refill T) p ↔ Runnable T p := by
  unfold Runnable refill
  split <;> rfl

/-- The ticks are refilled; state and priority stay. -/
theorem refill_fields (T : Pid → Proc) (p : Pid) :
    (refill T p).procState = (T p).procState ∧
      (refill T p).priority = (T p).priority ∧
      (refill T p).ticks =
        if Runnable T p then (T p).priority else (T p).ticks := by
  unfold refill
  split
  · exact ⟨rfl, rfl, rfl⟩
  · exact ⟨rfl, rfl, rfl⟩

theorem refill_ticks (h : Runnable T p) :
    (refill T p).ticks = (T p).priority := by
  rw [(refill_fields T p).2.2, if_pos h]

/-- The search goes through the table from its first entry on. -/
theorem picked_of_firstGreatest (h : FirstGreatest T (List.finRange _) p)
    (hpos : 0 < (T p).ticks) : Picked T p := by
  refine ⟨h.runnable, hpos, fun q => h.greatest q (List.mem_finRange q),
    fun q hq => ?_⟩
  obtain ⟨before, after, hlist, hbefore⟩ := h.first
  have hsorted := List.pairwise_lt_finRange
    (NR_TASKS_NATIVE + NR_PROCS_MAX).toNat
  rw [hlist, List.pairwise_append] at hsorted
  have hmem := List.mem_finRange q
  rw [hlist, List.mem_append, List.mem_cons] at hmem
  rcases hmem with hmem | rfl | hmem
  · exact hbefore q hmem
  · exact absurd hq (lt_irrefl _)
  · exact absurd hq (lt_asymm ((List.pairwise_cons.mp hsorted.2.1).1 q hmem))

/-- A pass that finds a process is the last one. -/
theorem schedule_found (hsome : ∃ q, Runnable s.procTable q ∧
      0 < (s.procTable q).ticks) :
    ∃ p, Picked s.procTable p ∧
      ∀ n, schedule (n + 1) s = .ok { s with pProcReady := p } := by
  obtain ⟨q, hrun, hlt⟩ := hsome
  obtain ⟨p, hp, hpos, hfirst⟩ := search_spec s.pProcReady
    ⟨q, List.mem_finRange q, hrun, hlt⟩
  refine ⟨p, picked_of_firstGreatest hfirst hpos, fun n => ?_⟩
  rw [schedule, hp]
  dsimp only
  rw [if_neg (by omega)]
  rfl

/-- A pass that finds none fills up, and goes on. -/
theorem schedule_refill (hnone : ∀ q, Runnable s.procTable q →
      (s.procTable q).ticks ≤ 0) (n : Nat) :
    schedule (n + 1) s = schedule n { s with procTable := refill s.procTable } := by
  rw [schedule, search_none fun q _ => hnone q]
  dsimp only
  rw [if_pos rfl]

/-- Where nobody has ticks or a priority above zero the loop goes on for
    ever. -/
theorem schedule_spins : ∀ {n : Nat} {s : Sched},
    (∀ q, Runnable s.procTable q →
      (s.procTable q).ticks ≤ 0 ∧ (s.procTable q).priority ≤ 0) →
    schedule n s = .error .spin := by
  intro n
  induction n with
  | zero => exact fun _ => rfl
  | succ n ih =>
      intro s hnone
      rw [schedule_refill fun q hq => (hnone q hq).1]
      refine ih fun q hq => ?_
      have hrun := runnable_refill.mp hq
      dsimp only
      rw [refill_ticks hrun, (refill_fields s.procTable q).2.1]
      exact ⟨(hnone q hrun).2, (hnone q hrun).2⟩

end Passes

/-- **`schedule`** returns within two passes and has picked the first process
    with the most ticks.  If nobody who can run has any they are refilled, to
    the priority and only those of who can run, and else they are as they
    were. -/
theorem schedule_picks {s : Sched} (hticks : ∀ p, 0 ≤ (s.procTable p).ticks)
    (hsome : ∃ p, Runnable s.procTable p ∧
      (0 < (s.procTable p).ticks ∨ 0 < (s.procTable p).priority)) :
    ∃ t, (∀ n, schedule (n + 2) s = .ok t) ∧ Picked t.procTable t.pProcReady ∧
      (∀ p, (t.procTable p).procState = (s.procTable p).procState ∧
        (t.procTable p).priority = (s.procTable p).priority) ∧
      ((∀ p, Runnable s.procTable p → (s.procTable p).ticks = 0) →
        ∀ p, (t.procTable p).ticks = if Runnable s.procTable p then
          (s.procTable p).priority else (s.procTable p).ticks) ∧
      (¬ (∀ p, Runnable s.procTable p → (s.procTable p).ticks = 0) →
        t.procTable = s.procTable) := by
  by_cases hzero : ∀ p, Runnable s.procTable p → (s.procTable p).ticks = 0
  · -- the first pass finds nobody, the second who has a priority
    obtain ⟨q, hrun, hq⟩ := hsome
    have hprio : 0 < (s.procTable q).priority := by
      have hnone := hzero q hrun
      omega
    obtain ⟨p, hpicked, hdone⟩ := schedule_found (s := { s with
      procTable := refill s.procTable }) ⟨q, runnable_refill.mpr hrun, by
        dsimp only
        rwa [refill_ticks hrun]⟩
    refine ⟨⟨refill s.procTable, p⟩, fun n => ?_, hpicked, fun r => ?_,
      fun _ r => (refill_fields s.procTable r).2.2, fun h => absurd hzero h⟩
    · rw [schedule_refill fun r hr => Int.le_of_eq (hzero r hr), hdone]
    · have hfields := refill_fields s.procTable r
      exact ⟨hfields.1, hfields.2.1⟩
  · have hfound : ∃ q, Runnable s.procTable q ∧ 0 < (s.procTable q).ticks := by
      by_contra hno
      refine hzero fun p hp => ?_
      have hle : ¬ 0 < (s.procTable p).ticks := fun hlt => hno ⟨p, hp, hlt⟩
      have hnonneg := hticks p
      omega
    obtain ⟨p, hpicked, hdone⟩ := schedule_found hfound
    exact ⟨{ s with pProcReady := p }, fun n => hdone (n + 1), hpicked,
      fun r => ⟨rfl, rfl⟩, fun h => absurd h hzero, fun _ => rfl⟩

/-- A table in which one process can run and has used up its ticks. -/
def oneRuns (q : Pid) : Sched :=
  ⟨fun p => ⟨if p = q then RUNNABLE else SENDING, 0, 3⟩, q⟩

/-- It is picked with its ticks refilled. -/
theorem schedule_picks_one : ∃ t,
    (∀ n, schedule (n + 2) (oneRuns ⟨6, by decide⟩) = .ok t) ∧
      t.pProcReady = ⟨6, by decide⟩ ∧ (t.procTable ⟨6, by decide⟩).ticks = 3 := by
  obtain ⟨q, hq⟩ : ∃ q : Pid, q = ⟨6, by decide⟩ := ⟨_, rfl⟩
  rw [← hq]
  have hself : Runnable (oneRuns q).procTable q := if_pos rfl
  have hother : ∀ p, Runnable (oneRuns q).procTable p → p = q := by
    intro p hp
    by_contra hne
    exact absurd ((if_neg hne).symm.trans hp) (by decide)
  obtain ⟨t, hdone, hpicked, hsame, hrefill, -⟩ := schedule_picks
    (s := oneRuns q) (fun p => Int.le_refl 0) ⟨q, hself,
      Or.inr (show (0 : Int) < 3 by decide)⟩
  refine ⟨t, hdone, hother _ ?_, ?_⟩
  · rw [Runnable, ← (hsame t.pProcReady).1]
    exact hpicked.runnable
  · rw [hrefill (fun p _ => rfl) q, if_pos hself]
    rfl

/-- **TERMINATION**: with ticks that are not negative `schedule` returns if and
    only if some process that can run has ticks or a priority. -/
theorem schedule_returns_iff {s : Sched}
    (hticks : ∀ p, 0 ≤ (s.procTable p).ticks) :
    (∃ n t, schedule n s = .ok t) ↔ ∃ p, Runnable s.procTable p ∧
      (0 < (s.procTable p).ticks ∨ 0 < (s.procTable p).priority) := by
  constructor
  · rintro ⟨n, t, h⟩
    by_contra hnone
    rw [schedule_spins] at h
    · cases h
    · intro q hq
      constructor
      · exact Int.not_lt.mp fun hlt => hnone ⟨q, hq, Or.inl hlt⟩
      · exact Int.not_lt.mp fun hlt => hnone ⟨q, hq, Or.inr hlt⟩
  · intro hsome
    obtain ⟨t, hdone, -⟩ := schedule_picks hticks hsome
    exact ⟨2, t, hdone 0⟩

/-! ## `clock_handler` -/

/-- A tick of the process that runs. -/
def tick (s : Sched) : Sched :=
  let p := s.procTable s.pProcReady
  let p : Proc := if p.ticks ≠ 0 then { p with ticks := p.ticks - 1 } else p
  { s with procTable := Function.update s.procTable s.pProcReady p }

/-- What a notification does to the table: states only. -/
def setStates (states : Pid → ProcState) (s : Sched) : Sched :=
  { s with procTable := fun p => { s.procTable p with procState := states p } }

/-- `clock_handler`, without `sys_ticks`; `wake` is what `wake_up_tty` makes of
    the states, when a key is pressed. -/
def clockHandler (n : Nat) (nestedInt : Int) (keyPressed : Bool)
    (wake : Sched → Pid → ProcState) (s : Sched) : Except Halt Sched :=
  let s := tick s
  let s := if keyPressed then setStates (wake s) s else s
  if nestedInt ≠ 0 then pure s
  else if (s.procTable s.pProcReady).ticks > 0 then pure s
  else schedule n s

/-- No process has negative ticks or a negative priority. -/
def NonNeg (s : Sched) : Prop :=
  ∀ p, 0 ≤ (s.procTable p).ticks ∧ 0 ≤ (s.procTable p).priority

theorem nonNeg_schedule {n : Nat} : ∀ {s t : Sched}, NonNeg s →
    schedule n s = .ok t → NonNeg t := by
  induction n with
  | zero =>
      intro s t _ h
      cases h
  | succ n ih =>
      intro s t hs h
      rw [schedule] at h
      dsimp only at h
      split at h
      · refine ih (fun p => ?_) h
        obtain ⟨-, hprio, hticks⟩ := refill_fields s.procTable p
        dsimp only
        rw [hprio, hticks]
        refine ⟨?_, (hs p).2⟩
        split
        · exact (hs p).2
        · exact (hs p).1
      · obtain rfl := pure_eq_ok.mp h
        exact hs

theorem nonNeg_tick {s : Sched} (hs : NonNeg s) : NonNeg (tick s) := by
  intro p
  unfold tick
  dsimp only
  by_cases hp : p = s.pProcReady
  · have hold := hs s.pProcReady
    rw [hp, Function.update_self]
    split
    · rename_i hne
      have hless : 0 ≤ (s.procTable s.pProcReady).ticks - 1 := by omega
      exact ⟨hless, hold.2⟩
    · exact hold
  · rw [Function.update_of_ne hp]
    exact hs p

theorem nonNeg_setStates {s : Sched} {states : Pid → ProcState} (hs : NonNeg s) :
    NonNeg (setStates states s) := hs

/-- The clock leaves no negative ticks. -/
theorem clock_ticks {n : Nat} {nestedInt : Int} {keyPressed : Bool}
    {wake : Sched → Pid → ProcState} {s t : Sched} (hs : NonNeg s)
    (h : clockHandler n nestedInt keyPressed wake s = .ok t) : NonNeg t := by
  have htick := nonNeg_tick hs
  have hnext : NonNeg (if keyPressed then setStates (wake (tick s)) (tick s)
      else tick s) := by
    split
    · exact nonNeg_setStates htick
    · exact htick
  unfold clockHandler at h
  dsimp only at h
  generalize (if keyPressed then setStates (wake (tick s)) (tick s)
      else tick s) = u at h hnext
  by_cases hnested : nestedInt ≠ 0
  · rw [if_pos hnested] at h
    obtain rfl := pure_eq_ok.mp h
    exact hnext
  · rw [if_neg hnested] at h
    by_cases hleft : (u.procTable u.pProcReady).ticks > 0
    · rw [if_pos hleft] at h
      obtain rfl := pure_eq_ok.mp h
      exact hnext
    · rw [if_neg hleft] at h
      exact nonNeg_schedule hnext h

end KosScheduler
