import Kos.BoundsProofs
import Kos.EvaluationProofs
import Kos.GuardedRunProofs
import Kos.RequestCountsProofs

/-! # Reference counts

    The processes open, close, fork and exit.

    * `fsFork` and `fsExit` are the two requests of PM: the one makes up for
      the slots that `do_fork` has copied, the other gives up those of a
      process;
    * in every run whose steps meet the condition the counts are right, and
      the next step leaves them right if and only if it meets it
      (`counts_exact`);
    * a bit of the inode map can be clear while the inode is in use, and then
      a new file is made of it (`open_not_counted`). -/

namespace KosReferenceCounts

open FlatMemory (Byte)
open GuardedRun
open RefCount
open KosFs
open KosReadWrite
open KosOpenFile
open KosRequests
open KosRefusals (numberOf)
open KosDescriptor (slotOf)
open KosTables
open KosFresh
open KosInitFs (initFs mkfs createSectorMap tarName)
open KosBounds (blankFs)
open KosEvaluation
open KosRequestCounts

/-! ## `fs_fork` and `fs_exit` -/

/-- One slot of the child, which has been copied from the parent. -/
def shareSlot (child : Int) (k : Fin NR_FILES) : FsM Unit := do
  let s ← get
  match s.fileDesc child k with
  | none => pure ()
  | some d => do
      modify fun s => s.updDesc d fun f => { f with cnt := f.cnt + 1 }
      match (s.fileDescTable d).inode with
      | none => throw .fault
      | some i => modify fun s => s.updInode i fun p =>
          { p with cnt := p.cnt + 1 }

/-- `fs_fork`. -/
def fsFork (child : Int) : FsM Int := do
  (List.finRange NR_FILES).forM (shareSlot child)
  pure 0

/-- One slot of a process that exits. -/
def giveUpSlot (pid : Int) (k : Fin NR_FILES) : FsM Unit := do
  let s ← get
  match s.fileDesc pid k with
  | none => pure ()
  | some d =>
      match (s.fileDescTable d).inode with
      | none => throw .fault
      | some i => do
          modify (lessUsed i)
          modify fun s => s.updDesc d dropDesc
          modify fun s => { s with
            fileDesc := Function.update s.fileDesc pid
              (Function.update (s.fileDesc pid) k none) }

/-- `fs_exit`. -/
def fsExit (pid : Int) : FsM Int := do
  (List.finRange NR_FILES).forM (giveUpSlot pid)
  pure 0

/-! ## Forks and exits -/

section Processes

variable {s t : Fs} {p : Pid} {i : Fin NR_INODE} {d : Fin NR_FILE_DESC}
  {k : Fin NR_FILES} {l : List (Fin NR_FILES)} {u : Unit}

/-- The slots `l` of a process are not looked at. -/
def hidden (s : Fs) (p : Pid) (l : List (Fin NR_FILES)) :
    Refs (Pid × Fin NR_FILES) (Fin NR_FILE_DESC) (Fin NR_INODE) :=
  { refs s with
    slot := fun x => if x.1 = p ∧ x.2 ∈ l then none else (refs s).slot x }

/-- The counts are right but for these slots. -/
structure CountedBut (p : Pid) (l : List (Fin NR_FILES)) (s : Fs) : Prop where
  exact : Exact (hidden s p l) (atRoot s)
  distinct : Distinct (refs s).uses (key s)

theorem counted_all (hs : CountedBut p [] s) : Counted s := by
  have hnone : hidden s p [] = refs s := by
    have hslot : (hidden s p []).slot = (refs s).slot :=
      funext fun x => if_neg fun h => List.not_mem_nil h.2
    show Refs.mk (hidden s p []).slot _ _ _ = _
    rw [hslot]
  exact ⟨hnone ▸ hs.exact, hs.distinct⟩

/-- The child has a slot more than was looked at. -/
theorem slot_shared (hk : k ∉ l) (v : Option (Fin NR_FILE_DESC))
    (hv : (refs s).slot (p, k) = v) :
    (hidden s p l).slot = Function.update (hidden s p (k :: l)).slot (p, k) v := by
  funext x
  by_cases hx : x = (p, k)
  · rw [hx, Function.update_self, ← hv]
    exact if_neg fun h => hk h.2
  · rw [Function.update_of_ne hx]
    have hmem : x.1 = p ∧ x.2 ∈ l ↔ x.1 = p ∧ x.2 ∈ k :: l := by
      refine and_congr_right fun hp => ?_
      rw [List.mem_cons]
      exact ⟨Or.inr, fun h => h.resolve_left fun hxk => hx (Prod.ext hp hxk)⟩
    show (if _ then _ else _) = if _ then _ else _
    rw [if_congr hmem rfl rfl]

/-- A descriptor and its inode have a user more. -/
def shared (d : Fin NR_FILE_DESC) (i : Fin NR_INODE) (s : Fs) : Fs :=
  (s.updDesc d fun f => { f with cnt := f.cnt + 1 }).updInode i fun q =>
    { q with cnt := q.cnt + 1 }

theorem refs_shared (s : Fs) (d : Fin NR_FILE_DESC) (i : Fin NR_INODE) :
    refs (shared d i s) = { refs s with
      count := Function.update (refs s).count d ((refs s).count d + 1)
      uses := Function.update (refs s).uses i ((refs s).uses i + 1) } := by
  have hinode : Function.update (refs s).target d (s.fileDescTable d).inode =
      (refs s).target := Function.update_eq_self ..
  rw [shared, refs_updInode, refs_updDesc]
  dsimp only
  rw [hinode]
  rfl

theorem key_shared (s : Fs) (d : Fin NR_FILE_DESC) (i : Fin NR_INODE) :
    key (shared d i s) = key s := by
  rw [shared, key_updInode]
  exact Function.update_eq_self ..

theorem run_shareSlot (h : shareSlot p.val k s = .ok u t) :
    (refs s).slot (p, k) = none ∧ s = t ∨ ∃ d i,
      (refs s).slot (p, k) = some d ∧ (refs s).target d = some i ∧
        t = shared d i s := by
  rw [shareSlot, run_get_bind] at h
  cases hslot : s.fileDesc p.val k with
  | none =>
      rw [hslot] at h
      cases h
      exact Or.inl ⟨hslot, rfl⟩
  | some d =>
      rw [hslot] at h
      obtain ⟨_, v, hmod, h⟩ := run_bind.mp h
      obtain rfl := run_modify.mp hmod
      cases hd : (s.fileDescTable d).inode with
      | none =>
          rw [hd] at h
          cases h
      | some i =>
          rw [hd] at h
          exact Or.inr ⟨d, i, hslot, hd, run_modify.mp h⟩

/-- One round of `fs_fork` looks at one slot more. -/
theorem counted_shareSlot (hk : k ∉ l) (hs : CountedBut p (k :: l) s)
    (h : shareSlot p.val k s = .ok u t) :
    CountedBut p l t ∧ t.fileDesc = s.fileDesc := by
  have hfree : (hidden s p (k :: l)).slot (p, k) = none :=
    if_pos ⟨rfl, List.mem_cons_self⟩
  rcases run_shareSlot h with ⟨hslot, rfl⟩ | ⟨d, i, hslot, hd, rfl⟩
  · have hshared := slot_shared hk none hslot
    rw [← hfree, Function.update_eq_self] at hshared
    have hsame : hidden s p l = hidden s p (k :: l) :=
      congrArg (fun f => { refs s with slot := f }) hshared
    exact ⟨⟨hsame ▸ hs.exact, hs.distinct⟩, rfl⟩
  · have hshare : hidden (shared d i s) p l =
        (hidden s p (k :: l)).share (p, k) d i := by
      have hshared := slot_shared (s := s) hk (some d) hslot
      rw [Refs.share, ← hshared, hidden, refs_shared]
      rfl
    refine ⟨⟨?_, ?_⟩, rfl⟩
    · rw [hshare]
      exact exact_share hs.exact hfree hd
    · rw [refs_shared, key_shared]
      exact distinct_change (R := hidden s p (k :: l)) hs.exact
        (atRoot_nonneg s) hs.distinct hd

/-- **`fs_fork`** makes up for the copied slots. -/
theorem counted_shareSlots : ∀ {l : List (Fin NR_FILES)} {s : Fs}, l.Nodup →
    CountedBut p l s → l.forM (shareSlot p.val) s = .ok u t →
    Counted t ∧ t.fileDesc = s.fileDesc := by
  intro l
  induction l with
  | nil =>
      intro s _ hs h
      cases h
      exact ⟨counted_all hs, rfl⟩
  | cons k l ih =>
      intro s hnodup hs h
      obtain ⟨hk, hl⟩ := List.nodup_cons.mp hnodup
      obtain ⟨_, v, hround, h⟩ := run_bind.mp h
      obtain ⟨hv, hslots⟩ := counted_shareSlot hk hs hround
      obtain ⟨ht, hrest⟩ := ih hl hv h
      exact ⟨ht, hrest.trans hslots⟩

theorem run_giveUpSlot (h : giveUpSlot p.val k s = .ok u t) :
    (refs s).slot (p, k) = none ∧ s = t ∨ ∃ d i,
      (refs s).slot (p, k) = some d ∧ (refs s).target d = some i ∧
        t = gaveUp p.val k d i s := by
  rw [giveUpSlot, run_get_bind] at h
  cases hslot : s.fileDesc p.val k with
  | none =>
      rw [hslot] at h
      cases h
      exact Or.inl ⟨hslot, rfl⟩
  | some d =>
      rw [hslot] at h
      dsimp only at h
      cases hd : (s.fileDescTable d).inode with
      | none =>
          rw [hd] at h
          cases h
      | some i =>
          rw [hd] at h
          cases h
          exact Or.inr ⟨d, i, hslot, hd, rfl⟩

/-- One round of `fs_exit`. -/
theorem counted_giveUpSlot (hs : Counted s)
    (h : giveUpSlot p.val k s = .ok u t) : Counted t ∧
      (refs t).slot = Function.update (refs s).slot (p, k) none := by
  rcases run_giveUpSlot h with ⟨hslot, rfl⟩ | ⟨d, i, hslot, hd, rfl⟩
  · refine ⟨hs, ?_⟩
    rw [← hslot, Function.update_eq_self]
  · refine ⟨counted_gaveUp hs hslot hd, ?_⟩
    rw [refs_gaveUp]
    rfl

/-- **`fs_exit`** gives up the slots. -/
theorem counted_giveUpSlots : ∀ {l : List (Fin NR_FILES)} {s : Fs},
    Counted s → l.forM (giveUpSlot p.val) s = .ok u t → Counted t ∧
      ∀ q j, (refs t).slot (q, j) =
        if q = p ∧ j ∈ l then none else (refs s).slot (q, j) := by
  intro l
  induction l with
  | nil =>
      intro s hs h
      cases h
      exact ⟨hs, fun q j => (if_neg fun h => List.not_mem_nil h.2).symm⟩
  | cons k l ih =>
      intro s hs h
      obtain ⟨_, v, hround, h⟩ := run_bind.mp h
      obtain ⟨hv, hslot⟩ := counted_giveUpSlot hs hround
      obtain ⟨ht, hrest⟩ := ih hv h
      refine ⟨ht, fun q j => ?_⟩
      rw [hrest, hslot]
      by_cases hqj : (q, j) = (p, k)
      · obtain ⟨rfl, rfl⟩ := Prod.mk.inj hqj
        rw [Function.update_self, ite_self, if_pos ⟨rfl, List.mem_cons_self⟩]
      · rw [Function.update_of_ne hqj]
        refine if_congr (and_congr_right fun hq => ?_) rfl rfl
        rw [List.mem_cons]
        exact ⟨Or.inr, fun h => h.resolve_left fun hj => hqj (Prod.ext hq hj)⟩

end Processes

/-! ## Runs -/

/-- The file system and the processes there are. -/
structure State where
  fs : Fs
  used : Pid → Bool

/-- What a state goes on by: a request of a process, a fork and an exit. -/
inductive Action where
  | request (p : Pid) (req : Request)
  | fork (parent child : Pid)
  | exit (p : Pid)

/-- The request has been done. -/
def succeeded : Request → Int → Prop
  | .readWrite _ _ _ _ _, _ => True
  | _, ret => ret ≠ -1

/-- `do_fork` copies the entry of the parent. -/
def copied (parent child : Pid) (s : Fs) : Fs :=
  { s with
    fileDesc := Function.update s.fileDesc child.val
      (s.fileDesc parent.val) }

/-- A request that succeeds, a fork, an exit or a new start. -/
def step (s : State) (a : Action) (t : State) : Prop :=
  match a with
  | .request p req => s.used p = true ∧ t.used = s.used ∧
      ∃ ret, succeeded req ret ∧ handle p.val req s.fs = .ok ret t.fs
  | .fork parent child => s.used parent = true ∧ s.used child = false ∧
      t.used = Function.update s.used child true ∧
      ∃ ret, fsFork child.val (copied parent child s.fs) = .ok ret t.fs
  | .exit p => s.used p = true ∧ t.used = Function.update s.used p false ∧
      ∃ ret, fsExit p.val s.fs = .ok ret t.fs

/-- FS has started, on any disk, and no process has a descriptor. -/
def Boot (s : State) : Prop :=
  ∃ sectCnt s₀, (∀ pid k, s₀.fileDesc pid k = none) ∧
    initFs sectCnt s₀ = .ok () s.fs

/-- **THE CONDITION** on a step. -/
def guard (s : State) : Action → Prop
  | .request _ (.open pathname flags) =>
      NumberUnused s.fs (pathname.takeWhile (· ≠ 0)) flags
  | _ => True

/-- The counts are right and processes that are not there have no slots. -/
structure Inv (s : State) : Prop where
  counted : Counted s.fs
  idle : ∀ p, s.used p = false → ∀ k, (refs s.fs).slot (p, k) = none

section Runs

variable {s t : State} {p : Pid}

/-- FS starts with the root directory and nothing else. -/
theorem inv_boot (h : Boot s) : Inv s := by
  obtain ⟨sectCnt, s₀, hnone, hrun⟩ := h
  obtain ⟨u, sb, -, -, -, htable, hdescs, hslots, -, -⟩ := initFs_run hrun
  have hslot : ∀ x, (refs s.fs).slot x = none := by
    intro x
    rw [refs, hslots]
    exact hnone _ _
  have hzero : ∀ d, slots (refs s.fs) d = 0 := by
    intro d
    refine Finset.sum_eq_zero fun x _ => ?_
    rw [hslot, if_neg (Option.some_ne_none d).symm]
  have hcount : ∀ d, (refs s.fs).count d = 0 := by
    intro d
    rw [refs, hdescs]
  have htarget : ∀ d, (refs s.fs).target d = none := by
    intro d
    rw [refs, hdescs]
  have huses : ∀ i, (refs s.fs).uses i = atRoot s.fs i := by
    intro i
    rw [refs, atRoot]
    dsimp only
    rw [htable]
    by_cases hi : i = s.fs.rootInode
    · rw [if_pos hi, hi, Function.update_self]
      rfl
    · rw [if_neg hi, Function.update_of_ne hi]
      rfl
  refine ⟨⟨⟨fun d => ?_, fun d => ?_, fun i => ?_⟩, fun i j hi hj _ => ?_⟩,
    fun p _ k => hslot (p, k)⟩
  · rw [hcount, hzero]
  · exact iff_of_true (htarget d) (hzero d)
  · have hheld : held (refs s.fs) i = 0 := by
      refine Finset.sum_eq_zero fun d _ => ?_
      rw [htarget, if_neg (Option.some_ne_none i).symm]
    rw [huses, hheld, Int.zero_add]
  · have hroot : ∀ i, (refs s.fs).uses i ≠ 0 → i = s.fs.rootInode := by
      intro i hi
      by_contra hne
      rw [huses, atRoot, if_neg hne] at hi
      exact hi rfl
    rw [hroot i hi, hroot j hj]

/-- A request keeps the counts if and only if it meets the condition, and is
    about the slots of the caller. -/
theorem request_iff {req : Request} {ret : Int} {fs' : Fs} (hs : Counted s.fs)
    (hok : succeeded req ret) (h : handle p.val req s.fs = .ok ret fs') :
    (Counted fs' ↔ guard s (.request p req)) ∧
      ∀ q k, q ≠ p → (refs fs').slot (q, k) = (refs s.fs).slot (q, k) := by
  cases req with
  | «open» pathname flags =>
      refine ⟨open_iff hs hok h, fun q k hq => ?_⟩
      obtain ⟨fd, d, i, w, -, -, -, hloc, hsame⟩ :=
        (doOpen_tables h).resolve_left fun hfail => hok hfail.1
      have hw : Alike w (truncated flags i w) := alike_truncated flags
      rw [(alike_same hsame).refs, refs_slot (s := truncated flags i w) rfl rfl]
      dsimp only
      rw [Function.update_of_ne fun hx => hq (congrArg Prod.fst hx), hw.refs]
      cases hloc with
      | existing _ _ hobt => rw [(taken_obtained hs hobt).refs]
      | created start free _ _ _ _ _ =>
          rw [(alike_grown free).refs, refs_updInode]
  | close fd =>
      refine ⟨iff_of_true (counted_close hs h) trivial, fun q k hq => ?_⟩
      obtain ⟨k', d, i, -, -, ht⟩ := doClose_tables h
      rw [show fs' = gaveUp p.val k' d i s.fs from ht, refs_gaveUp]
      exact Function.update_of_ne (fun hx => hq (congrArg Prod.fst hx)) ..
  | lseek fd off whence =>
      have halike := alike_lseek h
      refine ⟨iff_of_true (alike_counted halike hs) trivial, fun q k _ => ?_⟩
      rw [halike.refs]
  | readWrite io fd len reply buf =>
      obtain ⟨r, u, hrw, hret⟩ := run_bind.mp h
      cases hret
      have halike := alike_readWrite hrw
      refine ⟨iff_of_true (alike_counted halike hs) trivial, fun q k _ => ?_⟩
      rw [halike.refs]
  | unlink pathname =>
      obtain ⟨⟨ht, hslot⟩, -⟩ := counted_unlink hs hok h
      refine ⟨iff_of_true ht trivial, fun q k _ => ?_⟩
      rw [hslot]
  | stat pathname =>
      obtain ⟨r, u, hstat, hret⟩ := run_bind.mp h
      cases hret
      cases r with
      | none => exact absurd rfl hok
      | some st =>
          obtain ⟨ht, hslot⟩ := counted_stat hs hstat
          refine ⟨iff_of_true ht trivial, fun q k _ => ?_⟩
          rw [hslot]

/-- A fork keeps the counts, and the slots of the others. -/
theorem counted_fork {parent child : Pid} {ret : Int} {fs' : Fs} (hs : Inv s)
    (hchild : s.used child = false)
    (h : fsFork child.val (copied parent child s.fs) = .ok ret fs') :
    Counted fs' ∧
      ∀ q k, q ≠ child → (refs fs').slot (q, k) = (refs s.fs).slot (q, k) := by
  obtain ⟨_, u, hrun, h⟩ := run_bind.mp h
  cases h
  have hslots : ∀ q k, q ≠ child → (refs (copied parent child s.fs)).slot
      (q, k) = (refs s.fs).slot (q, k) := by
    intro q k hq
    have hne : (q.val : Int) ≠ child.val := fun h => hq (Fin.ext (by omega))
    exact congrFun (Function.update_of_ne hne ..) k
  have hslot : (hidden (copied parent child s.fs) child
      (List.finRange NR_FILES)).slot = (refs s.fs).slot := by
    funext ⟨q, k⟩
    by_cases hq : q = child
    · rw [hq, hs.idle child hchild]
      exact if_pos ⟨rfl, List.mem_finRange k⟩
    · rw [← hslots q k hq]
      exact if_neg fun hx => hq hx.1
  -- without the slots of the child nothing has changed
  have hsame : hidden (copied parent child s.fs) child
      (List.finRange NR_FILES) = refs s.fs :=
    congrArg (fun f => { refs s.fs with slot := f }) hslot
  have hbut : CountedBut child (List.finRange NR_FILES)
      (copied parent child s.fs) :=
    ⟨hsame ▸ hs.counted.exact, hs.counted.distinct⟩
  obtain ⟨ht, hkept⟩ := counted_shareSlots (List.nodup_finRange _) hbut hrun
  refine ⟨ht, fun q k hq => ?_⟩
  rw [← hslots q k hq, refs, hkept]
  rfl

theorem counted_exit {ret : Int} {fs' : Fs} (hs : Inv s)
    (h : fsExit p.val s.fs = .ok ret fs') : Counted fs' ∧
      ∀ q k, (refs fs').slot (q, k) =
        if q = p then none else (refs s.fs).slot (q, k) := by
  obtain ⟨_, u, hrun, h⟩ := run_bind.mp h
  cases h
  obtain ⟨ht, hslot⟩ := counted_giveUpSlots hs.counted hrun
  refine ⟨ht, fun q k => ?_⟩
  rw [hslot]
  exact if_congr (and_iff_left (List.mem_finRange k)) rfl rfl

/-- One step: the counts are kept if and only if it meets the condition. -/
theorem step_iff {a : Action} (hs : Inv s) (h : step s a t) :
    (Counted t.fs ↔ guard s a) ∧
      ∀ p, t.used p = false → ∀ k, (refs t.fs).slot (p, k) = none := by
  cases a with
  | request p req =>
      obtain ⟨hp, hused, ret, hok, hrun⟩ := h
      obtain ⟨hiff, hslot⟩ := request_iff hs.counted hok hrun
      refine ⟨hiff, fun q hq k => ?_⟩
      rw [hused] at hq
      have hne : q ≠ p := by
        rintro rfl
        rw [hp] at hq
        cases hq
      rw [hslot q k hne]
      exact hs.idle q hq k
  | fork parent child =>
      obtain ⟨-, hchild, hused, ret, hrun⟩ := h
      obtain ⟨ht, hslot⟩ := counted_fork hs hchild hrun
      refine ⟨iff_of_true ht trivial, fun q hq k => ?_⟩
      have hne : q ≠ child := by
        rintro rfl
        rw [hused, Function.update_self] at hq
        cases hq
      rw [hused, Function.update_of_ne hne] at hq
      rw [hslot q k hne]
      exact hs.idle q hq k
  | exit p =>
      obtain ⟨-, hused, ret, hrun⟩ := h
      obtain ⟨ht, hslot⟩ := counted_exit hs hrun
      refine ⟨iff_of_true ht trivial, fun q hq k => ?_⟩
      rw [hslot]
      by_cases hne : q = p
      · exact if_pos hne
      · rw [hused, Function.update_of_ne hne] at hq
        rw [if_neg hne]
        exact hs.idle q hq k

/-- **THE COUNTS ARE RIGHT** in every state of a run whose steps meet the
    condition, and the next step leaves them right if and only if it meets it
    too; no file is removed while a process has it open. -/
theorem counts_exact (h : Reach Boot step guard s) :
    Counted s.fs ∧
      (∀ a t, step s a t → (Counted t.fs ↔ guard s a)) ∧
      ∀ p pathname t, step s (.request p (.unlink pathname)) t →
        Unopened s.fs (pathname.takeWhile (· ≠ 0)) := by
  have hs : Inv s := reach_invariant Inv (fun _ => inv_boot)
    (fun _ _ _ hs hg hstep => by
      obtain ⟨hiff, hidle⟩ := step_iff hs hstep
      exact ⟨hiff.mpr hg, hidle⟩) h
  refine ⟨hs.counted, fun _ _ hstep => (step_iff hs hstep).1,
    fun p pathname t hstep => ?_⟩
  obtain ⟨-, -, ret, hok, hrun⟩ := hstep
  exact (counted_unlink hs.counted hok hrun).2

end Runs

/-! ## A process that opens and forks -/

/-- The processes of the first runs: `Init`. -/
def onlyInit : Pid → Bool := fun p => p = 5

theorem blank_boot {fs : Fs} (h : initFs 40960 blankFs = .ok () fs) :
    Boot ⟨fs, onlyInit⟩ :=
  ⟨40960, blankFs, fun _ _ => rfl, h⟩

/-- `Init` opens `cmd.tar` and forks. -/
theorem counts_exact_forked : ∃ s t u, Boot s ∧
    step s (.request 5 (.open tarName O_RDWR)) t ∧ step t (.fork 5 9) u ∧
    Counted u.fs := by
  have hrun : ((outcome (initFs 40960 blankFs)).bind fun p =>
      (outcome (handle 5 (.open tarName O_RDWR) p.2)).bind fun q =>
        (outcome (fsFork 9 (copied 5 9 q.2))).map fun _ =>
          (decide (numberOf p.2 tarName ≠ INVALID_INODE), decide (q.1 ≠ -1))) =
      some (true, true) := by
    simp only [initFs, mkfs, createSectorMap, fillBytes_eq]
    decide +kernel
  obtain ⟨⟨_, s⟩, hs, hrun⟩ := Option.bind_eq_some_iff.mp hrun
  obtain ⟨⟨ret, t⟩, ht, hrun⟩ := Option.bind_eq_some_iff.mp hrun
  obtain ⟨⟨r, u⟩, hu, hchecks⟩ := Option.map_eq_some_iff.mp hrun
  obtain ⟨hnr, hret⟩ := Prod.mk.inj hchecks
  have hboot := blank_boot (outcome_eq_some.mp hs)
  have hopen : step ⟨s, onlyInit⟩ (.request 5 (.open tarName O_RDWR))
      ⟨t, onlyInit⟩ :=
    ⟨rfl, rfl, ret, show ret ≠ -1 from of_decide_eq_true hret,
      outcome_eq_some.mp ht⟩
  have hfork : step ⟨t, onlyInit⟩ (.fork 5 9)
      ⟨u, Function.update onlyInit 9 true⟩ :=
    ⟨rfl, rfl, rfl, r, outcome_eq_some.mp hu⟩
  have hguard : guard ⟨s, onlyInit⟩ (.request 5 (.open tarName O_RDWR)) :=
    fun hno => absurd hno (of_decide_eq_true hnr)
  have hguard' : guard ⟨t, onlyInit⟩ (.fork 5 9) := trivial
  exact ⟨_, _, _, hboot, hopen, hfork, (counts_exact
    (.next (.next (.start hboot) hguard hopen) hguard' hfork)).1⟩

/-! ## An inode in use that is made again -/

/-- The state after requests of a process that all succeed. -/
def doneAll (p : Pid) : Fs → List Request → Option Fs
  | s, [] => some s
  | s, req :: rest =>
      match handle p.val req s with
      | .ok ret t => if ret ≠ -1 then doneAll p t rest else none
      | .error _ _ => none

theorem reach_doneAll {p : Pid} {used : Pid → Bool} (hp : used p = true) :
    ∀ {reqs : List Request} {s t : Fs}, Reach Boot step free ⟨s, used⟩ →
      doneAll p s reqs = some t → Reach Boot step free ⟨t, used⟩ := by
  intro reqs
  induction reqs with
  | nil =>
      intro s t hs h
      cases h
      exact hs
  | cons req rest ih =>
      intro s t hs h
      rw [doneAll] at h
      cases hrun : handle p.val req s with
      | error e u =>
          rw [hrun] at h
          cases h
      | ok ret u =>
          rw [hrun] at h
          dsimp only at h
          by_cases hret : ret ≠ -1
          · rw [if_pos hret] at h
            have hok : succeeded req ret := by
              cases req <;> first | exact hret | exact trivial
            have hstep : step ⟨s, used⟩ (.request p req) ⟨u, used⟩ :=
              ⟨hp, rfl, ret, hok, hrun⟩
            exact ih (.next hs trivial hstep) h
          · rw [if_neg hret] at h
            cases h

/-- The inode of a regular file that has the sector of the inode map and the first
    of the sector map, and an entry of the root directory for the inode that is at
    the beginning of `cmd.tar`. -/
def mapInode : List Byte :=
  [0, 0x80, 0, 0, 0, 2, 0, 0, 2, 0, 0, 0, 2, 0, 0, 0]

/-- An entry of the directory that names a bit of the map. -/
def mapEntry : List Byte :=
  [0x21, 0xFF, 7, 0, 0x62, 0, 0, 0, 0, 0, 0, 0, 0, 0, 0, 0]

/-- A write of some bytes. -/
def store (fd len : Int) (bytes : List Byte) : Request :=
  .readWrite .write fd len (0, fun _ => 0) fun k => bytes.getD k 0

/-- `Init` writes the two into `cmd.tar` and `/`, and maps with one bit through
    the file it then has; the next file gets the number of the root inode. -/
def remake : List Request :=
  [.open tarName O_RDWR, store 0 16 mapInode,
    .open [0x2F] O_RDWR, store 1 16 mapEntry,
    .open [0x62] O_RDWR, store 2 1024 [1],
    .open [0x63] (O_RDWR ||| O_CREAT)]

/-- The root inode has one user, and a descriptor. -/
theorem open_not_counted :
    ¬ ∀ s, Reach Boot step free s → Counted s.fs := by
  intro hall
  have hrun : ((outcome (initFs 40960 blankFs)).bind fun p =>
      (doneAll 5 p.2 remake).map fun s => (slotOf s 5 1).any fun d =>
        (s.fileDescTable d).inode = some s.rootInode ∧
          (s.inodeTable s.rootInode).cnt = 1) = some true := by
    simp only [initFs, mkfs, createSectorMap, fillBytes_eq, remake, store, doneAll, handle,
      doOpen, findInode, createFile, ← allocSectMapBitFast_eq]
    decide +kernel
  obtain ⟨⟨_, s⟩, hs, hrun⟩ := Option.bind_eq_some_iff.mp hrun
  obtain ⟨t, ht, hbad⟩ := Option.map_eq_some_iff.mp hrun
  have hreach := reach_doneAll rfl
    (.start (blank_boot (outcome_eq_some.mp hs))) ht
  obtain ⟨d, -, hd⟩ := (Option.any_eq_true ..).mp hbad
  obtain ⟨hinode, hone⟩ := of_decide_eq_true hd
  have hexact := (hall _ hreach).exact
  have hpos := exact_pos hexact (show (refs t).target d = _ from hinode)
  have huses := hexact.uses t.rootInode
  rw [atRoot, if_pos rfl, show (refs t).uses t.rootInode = 1 from hone] at huses
  omega

end KosReferenceCounts
