import Kos.CStringProofs
import Kos.FileNamesProofs
import Kos.GuardedRunProofs
import Kos.VsprintfProofs

/-! # Process names

    The field `name` of a `proc` has 16 bytes, and `proc_state` comes behind it.
    `do_fork` prints the parent's name, an underscore and the child's pid into
    the child's; `do_exec` copies a path of up to 127 characters.  Neither looks
    at the size.

    * As long as all names fit, a name is what its history makes of it: a
      native name or a path, and the pids of the forks since (`inv_reach`);
    * so the next name fits if and only if its history is short enough
      (`names_fit`). -/

namespace KosProcessNames

open FlatMemory (Byte)
open Overlay
open CString
open GuardedRun
open KosVsprintf
open KosFs (word putWord bytesOf word_congr)
open KosFileNames (MAX_PATH)

/-! ## `proc_table` in memory -/

/-- Of `const.h`, and the offsets in `proc_table`. -/
def NR_TASKS_NATIVE : Nat := 5
def NR_PROCS_NATIVE : Nat := 4
def NR_PROCS_MAX : Nat := 32
def FREE_SLOT : BitVec 32 := 0x20

/-- `sizeof(proc)`. -/
def SIZEOF_PROC : Nat := 404

/-- The size of `name`. -/
def NAME_SIZE : Nat := 16

/-- The address of an entry, from the start of `proc_table`. -/
def procAt (pid : Nat) : Nat := 404 * pid

/-- Where `ldt_sel` of a process is. -/
def ldtSelAt (pid : Nat) : Nat := 404 * pid + 72

/-- Where its name is. -/
def nameAt (pid : Nat) : Nat := 404 * pid + 356

/-- Where `proc_state` is. -/
def procStateAt (pid : Nat) : Nat := 404 * pid + 372

/-- Where `p_parent` is. -/
def pParentAt (pid : Nat) : Nat := 404 * pid + 396

/-- The word at `proc_state`. -/
def procState (mem : Nat → Byte) (pid : Nat) : BitVec 32 :=
  word mem (procStateAt pid)

/-- The search for a free slot in `do_fork`. -/
def findFree (mem : Nat → Byte) : Nat → Nat → Option Nat
  | 0, _ => none
  | n + 1, i =>
      if procState mem i = FREE_SLOT then some i else findFree mem n (i + 1)

/-! ## The two functions that store a name -/

/-- A store into `name`: whose, the characters, and the memory before. -/
structure NameStore where
  pid : Nat
  str : List Byte
  mem : Nat → Byte

/-- The memory after the store. -/
def NameStore.after (w : NameStore) : Nat → Byte :=
  strcpy w.mem (nameAt w.pid) w.str

/-- The child's entry in `do_fork`, before its name is printed. -/
def copyProc (mem : Nat → Byte) (parentPid childPid : Nat) : Nat → Byte :=
  let childLdtSel := drop mem (ldtSelAt childPid)
  let mem := put mem (procAt childPid) SIZEOF_PROC (drop mem (procAt parentPid))
  let mem := put mem (ldtSelAt childPid) 2 childLdtSel
  putWord mem (pParentAt childPid) (BitVec.ofNat 32 parentPid)

/-- `do_fork`, up to the name of the child. -/
def doForkName (fuel : Nat) (mem : Nat → Byte) (parentPid childPid : Nat) :
    Option NameStore :=
  let mem := copyProc mem parentPid childPid
  (fun name => ⟨childPid,
    vsprintf "%s_%d" [.str name, .int (BitVec.ofNat 32 childPid)], mem⟩) <$>
      readStr mem fuel (nameAt parentPid)

/-- The end of `do_exec`; `pathname` are the `name_len` characters of the
    message, and a NUL follows them. -/
def doExecName (mem : Nat → Byte) (execPid : Nat) (pathname : List Byte) :
    NameStore :=
  ⟨execPid, pathname.takeWhile (· ≠ 0), mem⟩

/-! ## Histories of names -/

/-- How a name came about: the path of the last `exec`, or the native name, and
    the children's pids in the forks since. -/
structure History where
  base : List Byte
  forks : List Nat

/-- The memory, and the history of each name. -/
structure Sys where
  mem : Nat → Byte
  history : Nat → History

/-- What may change a name. -/
inductive Event where
  | fork (parentPid : Nat)
  | exec (pid : Nat) (pathname : List Byte)
  | other

/-- The name that an event stores. -/
def stored (fuel : Nat) (s : Sys) : Event → Option NameStore
  | .fork parentPid =>
      match findFree s.mem 37 0 with
      | some childPid => doForkName fuel s.mem parentPid childPid
      | none => none
  | .exec pid pathname => some (doExecName s.mem pid pathname)
  | .other => none

/-- One fork or exec that gets as far as the name, or anything else that leaves
    the names alone and free slots free.  Whether the path of an exec is that of
    a file is left open. -/
inductive Step : Sys → Event → Sys → Prop where
  | fork {fuel : Nat} {s : Sys} {p c : Nat} {w : NameStore} (hp : p < 37)
      (hlive : procState s.mem p ≠ FREE_SLOT)
      (hfind : findFree s.mem 37 0 = some c)
      (hcall : doForkName fuel s.mem p c = some w) :
      Step s (.fork p) { mem := w.after
                         history := Function.update s.history c
                          ⟨(s.history p).base, (s.history p).forks ++ [c]⟩ }
  | exec {s : Sys} {p : Nat} {pathname : List Byte} (hp : p < 37)
      (hlive : procState s.mem p ≠ FREE_SLOT)
      (hlen : pathname.length < MAX_PATH) :
      Step s (.exec p pathname) { mem := (doExecName s.mem p pathname).after
                                  history := Function.update s.history p
                                    ⟨pathname.takeWhile (· ≠ 0), []⟩ }
  | other {s : Sys} {mem : Nat → Byte}
      (hname : ∀ q < 37, ∀ k < NAME_SIZE,
        mem (nameAt q + k) = s.mem (nameAt q + k))
      (hfree : ∀ q < 37, procState s.mem q = FREE_SLOT →
        procState mem q = FREE_SLOT) :
      Step s .other { s with mem := mem }

/-- The names in `task_table` and `user_proc_table`. -/
def nativeName (pid : Nat) : List Byte :=
  ((["TTY", "SYS", "HD", "FS", "PM", "INIT", "APP1", "APP2", "APP3"].getD pid
    "").toList).map ch

/-- The names that `init_process` has given. -/
structure Boot (s : Sys) : Prop where
  native : ∀ q < NR_TASKS_NATIVE + NR_PROCS_NATIVE,
    StrAt s.mem (nameAt q) (nativeName q) ∧ s.history q = ⟨nativeName q, []⟩
  free : ∀ q < 37, NR_TASKS_NATIVE + NR_PROCS_NATIVE ≤ q →
    procState s.mem q = FREE_SLOT

/-! ## What should hold, and when it does -/

/-- The name that the event stores fits with its NUL, and `proc_state` is what
    it was. -/
def Fits (s : Sys) (e : Event) : Prop :=
  ∀ fuel w, stored fuel s e = some w → w.str.length + 1 ≤ NAME_SIZE ∧
    procState w.after w.pid = procState w.mem w.pid

/-- The digits of a pid. -/
def decimals (pid : Nat) : Nat := if pid < 10 then 1 else 2

/-- An underscore and a pid for each fork. -/
def History.size (h : History) : Nat :=
  h.base.length + (h.forks.map fun c => 1 + decimals c).sum

/-- The history that the event makes has at most 15 characters. -/
def Short (s : Sys) : Event → Prop
  | .fork p => ∀ c, findFree s.mem 37 0 = some c →
      (s.history p).size + (1 + decimals c) < NAME_SIZE
  | .exec _ pathname => (pathname.takeWhile (· ≠ 0)).length < NAME_SIZE
  | .other => True

/-! ## Names and their histories -/

/-- The name that the forks of a process have made. -/
def History.name (h : History) : List Byte :=
  h.base ++ h.forks.flatMap fun c : Nat => ch '_' :: i2a 10 10 c

/-- The name of a child. -/
theorem vsprintf_fork {name : List Byte} (hname : ∀ b ∈ name, b ≠ 0)
    {c : Nat} (hc : c < 37) :
    vsprintf "%s_%d" [.str name, .int (BitVec.ofNat 32 c)] =
      name ++ ch '_' :: i2a 10 10 c := by
  have hint : (BitVec.ofNat 32 c).toInt = c := by
    have hall : ∀ c < 37, (BitVec.ofNat 32 c).toInt = c := by decide
    exact hall c hc
  have hconv : convert 'd' (some (.int (BitVec.ofNat 32 c))) = i2a 10 10 c := by
    simp only [convert]
    rw [hint]
    have hpos : ¬ (c : Int) < 0 := by omega
    simp [hpos]
  show pad ' ' 0 name ++ ch '_' ::
    (pad ' ' 0 (convert 'd' (some (.int (BitVec.ofNat 32 c)))) ++ []) = _
  rw [hconv, pad_eq hname, List.append_nil,
    pad_eq (i2a_ne_zero (by decide) (by decide) (by omega))]

/-- The number of a process has one or two digits. -/
theorem i2a_length_pid : ∀ c : Nat, c < 37 →
    (i2a 10 10 c).length = decimals c := by
  decide +kernel

/-- The length of the name. -/
theorem name_length {h : History} (hforks : ∀ c ∈ h.forks, c < 37) :
    h.name.length = h.size := by
  rw [History.name, History.size, List.length_append, List.length_flatMap]
  congr 2
  refine List.map_congr_left fun c hc => ?_
  rw [List.length_cons, i2a_length_pid c (hforks c hc), Nat.add_comm]

/-- A fork puts the number of the child behind the name. -/
theorem name_snoc (base : List Byte) (forks : List Nat) (c : Nat) :
    (History.mk base (forks ++ [c])).name =
      (History.mk base forks).name ++ ch '_' :: i2a 10 10 c := by
  simp [History.name]

/-- A fork makes the name longer by the number and the `_`. -/
theorem size_snoc (base : List Byte) (forks : List Nat) (c : Nat) :
    (History.mk base (forks ++ [c])).size =
      (History.mk base forks).size + (1 + decimals c) := by
  simp [History.size, Nat.add_assoc]

/-- A name has no NUL. -/
theorem name_ne_zero {h : History} (hbase : ∀ b ∈ h.base, b ≠ 0) :
    ∀ b ∈ h.name, b ≠ 0 := by
  intro b hb
  rw [History.name, List.mem_append] at hb
  rcases hb with hb | hb
  · exact hbase b hb
  · obtain ⟨c, -, hb⟩ := List.mem_flatMap.mp hb
    rcases List.mem_cons.mp hb with rfl | hb
    · decide
    · exact i2a_ne_zero (by decide) (by decide) (by omega) b hb

/-! ## Where the stores go -/

section Stores

variable {mem : Nat → Byte} {p c q x : Nat} {w : NameStore}

/-- The slot that was found is free. -/
theorem findFree_eq_some : ∀ {n i : Nat}, findFree mem n i = some c →
    i ≤ c ∧ c < i + n ∧ procState mem c = FREE_SLOT := by
  intro n
  induction n with
  | zero =>
      intro i h
      cases h
  | succ n ih =>
      intro i h
      rw [findFree] at h
      split at h
      · rename_i hfree
        obtain rfl := Option.some.inj h
        exact ⟨Nat.le_refl _, by omega, hfree⟩
      · obtain ⟨hle, hlt, hfree⟩ := ih h
        exact ⟨by omega, by omega, hfree⟩

/-- Outside the child's entry nothing is copied. -/
theorem copyProc_of_out (h : x < procAt c ∨ procAt c + SIZEOF_PROC ≤ x) :
    copyProc mem p c x = mem x := by
  simp only [procAt, SIZEOF_PROC] at h
  simp only [copyProc, putWord, procAt, ldtSelAt, pParentAt, SIZEOF_PROC]
  rw [put_of_out (by omega), put_of_out (by omega), put_of_out (by omega)]

/-- The child has the name and the state of its parent. -/
theorem copyProc_name {k : Nat} (hk : k < 20) :
    copyProc mem p c (nameAt c + k) = mem (nameAt p + k) := by
  simp only [copyProc, putWord, procAt, ldtSelAt, pParentAt, SIZEOF_PROC,
    nameAt]
  rw [put_of_out (by omega), put_of_out (by omega), put_of_in (by omega), drop]
  congr 1
  omega

/-- The copied entry has the state of the parent. -/
theorem procState_copyProc : procState (copyProc mem p c) c = procState mem p := by
  refine word_congr fun k hk => ?_
  rw [show procStateAt c + k = nameAt c + (16 + k) by
    simp only [procStateAt, nameAt]; omega, copyProc_name (by omega)]
  congr 1
  simp only [procStateAt, nameAt]
  omega

/-- The copy leaves the other entries. -/
theorem copyProc_of_ne (mem : Nat → Byte) {k : Nat} (h : q ≠ c) (hk : k < SIZEOF_PROC) :
    copyProc mem p c (procAt q + k) = mem (procAt q + k) := by
  refine copyProc_of_out ?_
  simp only [procAt, SIZEOF_PROC] at hk ⊢
  omega

/-- A name that fits stays inside its field. -/
theorem after_of_out (hfit : w.str.length + 1 ≤ NAME_SIZE)
    (h : x < nameAt w.pid ∨ procStateAt w.pid ≤ x) : w.after x = w.mem x := by
  refine strcpy_of_out ?_
  simp only [nameAt, procStateAt, NAME_SIZE] at h hfit ⊢
  omega

/-- A name that fits leaves every state. -/
theorem procState_after (hfit : w.str.length + 1 ≤ NAME_SIZE) (q : Nat) :
    procState w.after q = procState w.mem q := by
  refine word_congr fun k hk => after_of_out hfit ?_
  simp only [nameAt, procStateAt]
  omega

/-- A name that fits leaves the other names. -/
theorem name_after_of_ne (hfit : w.str.length + 1 ≤ NAME_SIZE)
    (h : q ≠ w.pid) {k : Nat} (hk : k < NAME_SIZE) :
    w.after (nameAt q + k) = w.mem (nameAt q + k) := by
  refine after_of_out hfit ?_
  simp only [nameAt, procStateAt, NAME_SIZE] at hk ⊢
  omega

end Stores

/-! ## The invariant -/

/-- A name is what its history says, and fits. -/
structure Named (s : Sys) (q : Nat) : Prop where
  str : StrAt s.mem (nameAt q) (s.history q).name
  base : ∀ b ∈ (s.history q).base, b ≠ 0
  forks : ∀ c ∈ (s.history q).forks, c < 37
  size : (s.history q).size < NAME_SIZE

/-- All processes are named. -/
def Inv (s : Sys) : Prop :=
  ∀ q < 37, procState s.mem q ≠ FREE_SLOT → Named s q

variable {s s' : Sys} {p c q fuel : Nat} {w : NameStore} {e : Event}

/-- A name depends on its field and its history. -/
theorem named_congr (h : Named s q)
    (hmem : ∀ k < NAME_SIZE, s'.mem (nameAt q + k) = s.mem (nameAt q + k))
    (hhist : s'.history q = s.history q) : Named s' q := by
  obtain ⟨hstr, hbase, hforks, hsize⟩ := h
  refine ⟨?_, ?_, ?_, ?_⟩
  · rw [hhist]
    refine strAt_congr hstr fun k hk => hmem k ?_
    rw [name_length hforks] at hk
    omega
  · rw [hhist]
    exact hbase
  · rw [hhist]
    exact hforks
  · rw [hhist]
    exact hsize

/-- **THE NAME OF A CHILD**: the parent's, and one more fork. -/
theorem str_doForkName (h : Named s p) (hpc : p ≠ c) (hc : c < 37)
    (hcall : doForkName fuel s.mem p c = some w) :
    w.pid = c ∧ w.mem = copyProc s.mem p c ∧
      w.str = (History.mk (s.history p).base
        ((s.history p).forks ++ [c])).name := by
  obtain ⟨name, hread, rfl⟩ := Option.map_eq_some_iff.mp hcall
  refine ⟨rfl, rfl, ?_⟩
  -- the copy leaves the parent's name alone
  have hparent : StrAt (copyProc s.mem p c) (nameAt p) (s.history p).name := by
    refine strAt_congr h.str fun k hk => ?_
    rw [name_length h.forks] at hk
    have hsize := h.size
    have hcopy := copyProc_of_ne s.mem (p := p) (k := 356 + k) hpc
      (by simp only [SIZEOF_PROC, NAME_SIZE] at hsize ⊢; omega)
    rw [show nameAt p + k = procAt p + (356 + k) by
      simp only [nameAt, procAt]; omega]
    exact hcopy
  obtain rfl := strAt_unique (readStr_eq_some.mp hread).1 hparent
  rw [name_snoc]
  exact vsprintf_fork (name_ne_zero h.base) hc

/-- The length of the child's name. -/
theorem length_doForkName (h : Named s p) (hpc : p ≠ c) (hc : c < 37)
    (hcall : doForkName fuel s.mem p c = some w) :
    w.str.length = (s.history p).size + (1 + decimals c) := by
  obtain ⟨-, -, hstr⟩ := str_doForkName h hpc hc hcall
  rw [hstr, name_length, size_snoc]
  intro d hd
  rcases List.mem_append.mp hd with hd | hd
  · exact h.forks d hd
  · rw [List.mem_singleton.mp hd]
    exact hc

/-- A path up to its NUL has none. -/
theorem takeWhile_ne_zero (pathname : List Byte) :
    ∀ b ∈ pathname.takeWhile (· ≠ 0), b ≠ 0 := by
  intro b hb
  have htrue := List.mem_takeWhile_imp hb
  simpa using htrue

/-- **STEP**: a short history keeps all processes named. -/
theorem inv_step (h : Inv s) (hg : Short s e) (hstep : Step s e s') :
    Inv s' := by
  cases hstep with
  | fork hp hlive hfind hcall =>
      rename_i fuel p c w
      obtain ⟨-, hc, hslot⟩ := findFree_eq_some hfind
      rw [Nat.zero_add] at hc
      have hpc : p ≠ c := by
        rintro rfl
        exact hlive hslot
      have hparent := h p hp hlive
      have hlen := length_doForkName hparent hpc hc hcall
      obtain ⟨rfl, hmem, hstr⟩ := str_doForkName hparent hpc hc hcall
      have hfit : w.str.length + 1 ≤ NAME_SIZE := by
        rw [hlen]
        exact hg _ hfind
      intro q hq hqlive
      by_cases hqc : q = w.pid
      · -- the child
        subst hqc
        refine ⟨?_, ?_, ?_, ?_⟩ <;> dsimp only <;>
          rw [Function.update_self]
        · rw [← hstr]
          refine strAt_strcpy ?_
          rw [hstr]
          exact name_ne_zero hparent.base
        · exact hparent.base
        · intro d hd
          rcases List.mem_append.mp hd with hd | hd
          · exact hparent.forks d hd
          · rw [List.mem_singleton.mp hd]
            exact hc
        · rw [size_snoc]
          exact hg _ hfind
      · -- anybody else: the copy and the name are not in its entry
        have hsame : ∀ k < SIZEOF_PROC,
            w.mem (procAt q + k) = s.mem (procAt q + k) := by
          intro k hk
          rw [hmem]
          exact copyProc_of_ne _ hqc hk
        have hqlive' : procState s.mem q ≠ FREE_SLOT := by
          intro hfree
          refine hqlive ?_
          dsimp only
          rw [procState_after hfit, ← hfree]
          refine word_congr fun k hk => ?_
          rw [show procStateAt q + k = procAt q + (372 + k) by
            simp only [procStateAt, procAt]; omega]
          exact hsame _ (by simp only [SIZEOF_PROC]; omega)
        refine named_congr (h q hq hqlive') (fun k hk => ?_)
          (Function.update_of_ne hqc _ _)
        dsimp only
        rw [name_after_of_ne hfit hqc hk,
          show nameAt q + k = procAt q + (356 + k) by
            simp only [nameAt, procAt]; omega]
        exact hsame _ (by simp only [SIZEOF_PROC, NAME_SIZE] at hk ⊢; omega)
  | exec hp hlive hlen =>
      rename_i p pathname
      have hfit : (doExecName s.mem p pathname).str.length + 1 ≤ NAME_SIZE := hg
      intro q hq hqlive
      by_cases hqp : q = p
      · subst hqp
        -- the caller's name begins a new history
        refine ⟨?_, ?_, ?_, ?_⟩ <;> dsimp only <;>
          rw [Function.update_self]
        · have hname : (History.mk (pathname.takeWhile (· ≠ 0)) []).name =
              pathname.takeWhile (· ≠ 0) := List.append_nil _
          rw [hname]
          exact strAt_strcpy (takeWhile_ne_zero pathname)
        · exact takeWhile_ne_zero pathname
        · intro d hd
          cases hd
        · exact hg
      · have hqlive' : procState s.mem q ≠ FREE_SLOT := by
          intro hfree
          exact hqlive ((procState_after hfit q).trans hfree)
        exact named_congr (h q hq hqlive')
          (fun k hk => name_after_of_ne hfit hqp hk)
          (Function.update_of_ne hqp _ _)
  | other hname hfree =>
      intro q hq hqlive
      refine named_congr (h q hq fun hf => hqlive (hfree q hq hf))
        (fun k hk => hname q hq k hk) rfl

/-- The names of `init_process`. -/
theorem nativeName_spec : ∀ q < 9, (∀ b ∈ nativeName q, b ≠ 0) ∧
    (nativeName q).length < 16 := by
  intro q hq
  obtain rfl | rfl | rfl | rfl | rfl | rfl | rfl | rfl | rfl :
      q = 0 ∨ q = 1 ∨ q = 2 ∨ q = 3 ∨ q = 4 ∨ q = 5 ∨ q = 6 ∨ q = 7 ∨ q = 8 := by
    omega
  all_goals simp [nativeName, ch]

/-- The names fit once the processes are set up. -/
theorem inv_boot (h : Boot s) : Inv s := by
  intro q hq hlive
  have hnative : q < 9 := by
    by_contra hge
    exact hlive (h.free q hq (by simpa [NR_TASKS_NATIVE, NR_PROCS_NATIVE]
      using hge))
  obtain ⟨hstr, hhist⟩ := h.native q hnative
  obtain ⟨hne, hlen⟩ := nativeName_spec q hnative
  refine ⟨?_, ?_, ?_, ?_⟩ <;> rw [hhist]
  · have hname : (History.mk (nativeName q) []).name = nativeName q :=
      List.append_nil _
    rw [hname]
    exact hstr
  · exact hne
  · intro c hc
    cases hc
  · exact hlen

/-- All processes are named after every run of short histories. -/
theorem inv_reach (h : Reach Boot Step Short s) : Inv s :=
  reach_invariant Inv (fun _ h => inv_boot h)
    (fun _ _ _ h hg hstep => inv_step h hg hstep) h

/-- **NAMES FIT**: after every run of short histories, the name that the next
    fork or exec stores fits if and only if its history is short again. -/
theorem names_fit (h : Reach Boot Step Short s) (hstep : Step s e s') :
    Fits s e ↔ Short s e := by
  have hinv := inv_reach h
  cases hstep with
  | fork hp hlive hfind hcall =>
      rename_i fuel p c w
      obtain ⟨-, hc, hslot⟩ := findFree_eq_some hfind
      rw [Nat.zero_add] at hc
      have hpc : p ≠ c := by
        rintro rfl
        exact hlive hslot
      have hparent := hinv p hp hlive
      -- the string is that of the child, whatever the fuel
      have hstored : ∀ n, stored n s (.fork p) = doForkName n s.mem p c := by
        intro n
        rw [stored, hfind]
      constructor
      · intro hfits d hd
        obtain rfl := Option.some.inj (hfind.symm.trans hd)
        have hlen := (hfits fuel w ((hstored fuel).trans hcall)).1
        rw [length_doForkName hparent hpc hc hcall] at hlen
        exact hlen
      · intro hshort n v hv
        rw [hstored] at hv
        have hfit : v.str.length + 1 ≤ NAME_SIZE := by
          rw [length_doForkName hparent hpc hc hv]
          exact hshort c hfind
        exact ⟨hfit, procState_after hfit v.pid⟩
  | exec hp hlive hlen =>
      rename_i p pathname
      constructor
      · intro hfits
        exact (hfits 0 _ rfl).1
      · intro hshort n v hv
        obtain rfl := Option.some.inj hv
        have hfit : (doExecName s.mem p pathname).str.length + 1 ≤
            NAME_SIZE := hshort
        exact ⟨hfit, procState_after hfit p⟩
  | other hname hfree =>
      refine ⟨fun _ => trivial, fun _ n v hv => ?_⟩
      cases hv

/-! ## A fork of a fork of a fork -/

/-- The entries below `n` are in use, in state 0, and the others are free. -/
def Running (s : Sys) (n : Nat) : Prop :=
  ∀ q < 37, procState s.mem q = if q < n then 0 else FREE_SLOT

/-- The slot that `do_fork` finds when those below are taken. -/
theorem findFree_running {mem : Nat → Byte} {c : Nat}
    (hfree : procState mem c = FREE_SLOT) :
    ∀ {n i : Nat}, i ≤ c → c < i + n →
      (∀ q, i ≤ q → q < c → procState mem q ≠ FREE_SLOT) →
      findFree mem n i = some c := by
  intro n
  induction n with
  | zero =>
      intro i hle hlt _
      omega
  | succ n ih =>
      intro i hle hlt hbusy
      rw [findFree]
      by_cases hic : i = c
      · rw [hic, if_pos hfree]
      · rw [if_neg (hbusy i (Nat.le_refl _) (by omega))]
        exact ih (by omega) (by omega) fun q hq hqc => hbusy q (by omega) hqc

/-- The first free slot while the first ones run. -/
theorem running_free (h : Running s c) (hc : c < 37) :
    findFree s.mem 37 0 = some c := by
  refine findFree_running ?_ (Nat.zero_le _) (by omega) fun q _ hq => ?_
  · rw [h c hc, if_neg (Nat.lt_irrefl _)]
  · rw [h q (by omega), if_pos hq]
    decide

/-- A named process that runs can fork. -/
theorem doForkName_exists (h : Named s p) (hpc : p ≠ c) :
    ∃ w, doForkName 17 s.mem p c = some w := by
  have hparent : StrAt (copyProc s.mem p c) (nameAt p) (s.history p).name := by
    refine strAt_congr h.str fun k hk => ?_
    rw [name_length h.forks] at hk
    have hsize := h.size
    refine copyProc_of_out ?_
    simp only [nameAt, procAt, SIZEOF_PROC, NAME_SIZE] at hsize ⊢
    omega
  have hlen : (s.history p).name.length < 17 := by
    rw [name_length h.forks]
    exact Nat.lt_succ_of_lt h.size
  rw [doForkName, readStr_eq_some.mpr ⟨hparent, hlen⟩]
  exact ⟨_, rfl⟩

/-- One more fork by a process that runs. -/
theorem reach_fork (h : Reach Boot Step Short s) (hrun : Running s c)
    (hc : c < 37) (hpc : p < c)
    (hshort : (s.history p).size + (1 + decimals c) < NAME_SIZE) :
    ∃ s', Reach Boot Step Short s' ∧ Running s' (c + 1) ∧
      Step s (.fork p) s' ∧
      s'.history = Function.update s.history c
        ⟨(s.history p).base, (s.history p).forks ++ [c]⟩ := by
  have hfind := running_free hrun hc
  have hlive : procState s.mem p ≠ FREE_SLOT := by
    rw [hrun p (by omega), if_pos hpc]
    decide
  have hnamed := inv_reach h p (by omega) hlive
  have hne : p ≠ c := Nat.ne_of_lt hpc
  obtain ⟨w, hw⟩ := doForkName_exists hnamed hne
  have hg : Short s (.fork p) := by
    intro d hd
    obtain rfl := Option.some.inj (hfind.symm.trans hd)
    exact hshort
  have hstep := Step.fork (by omega) hlive hfind hw
  refine ⟨_, .next h hg hstep, fun q hq => ?_, hstep, rfl⟩
  obtain ⟨hpid, hmem, -⟩ := str_doForkName hnamed hne hc hw
  have hfit : w.str.length + 1 ≤ NAME_SIZE := by
    rw [length_doForkName hnamed hne hc hw]
    exact hshort
  dsimp only
  rw [procState_after hfit, hmem]
  by_cases hqc : q = c
  · rw [hqc, procState_copyProc, hrun p (by omega), if_pos hpc,
      if_pos (Nat.lt_succ_self c)]
  · have hsame : procState (copyProc s.mem p c) q = procState s.mem q := by
      refine word_congr fun k hk => copyProc_of_out ?_
      simp only [procStateAt, procAt, SIZEOF_PROC]
      omega
    rw [hsame, hrun q hq]
    by_cases hlt : q < c
    · rw [if_pos hlt, if_pos (by omega)]
    · rw [if_neg hlt, if_neg (by omega)]

/-- The table after boot. -/
def bootMem : Nat → Byte := fun x =>
  if x / 404 < 9 then
    if x % 404 < 356 then 0 else (nativeName (x / 404)).getD (x % 404 - 356) 0
  else if x % 404 = 372 then 0x20 else 0

/-- The memory behind `init_process`. -/
def bootSys : Sys := { mem := bootMem
                       history := fun q => ⟨nativeName q, []⟩ }

/-- Behind a native name there are zeros up to the end of the entry. -/
theorem bootMem_name {q k : Nat} (hq : q < 9) (hk : k < 48) :
    bootMem (nameAt q + k) = (nativeName q).getD k 0 := by
  have hdiv : (404 * q + 356 + k) / 404 = q := by omega
  have hmod : (404 * q + 356 + k) % 404 = 356 + k := by omega
  rw [bootMem, nameAt, hdiv, hmod, if_pos hq, if_neg (by omega),
    Nat.add_sub_cancel_left]

/-- The slots after `init_process`. -/
theorem bootMem_state : ∀ q < 37, procState bootMem q =
    if q < 9 then 0 else FREE_SLOT := by
  intro q hq
  by_cases hnative : q < 9
  · have hlen := (nativeName_spec q hnative).2
    rw [if_pos hnative, show (0 : BitVec 32) = word (fun _ => 0) 0 by decide]
    refine word_congr fun k hk => ?_
    rw [show procStateAt q + k = nameAt q + (16 + k) by
      rw [procStateAt, nameAt]; omega, bootMem_name hnative (by omega)]
    exact List.getD_eq_default _ _ (by omega)
  · rw [if_neg hnative, show FREE_SLOT = word (fun x => if x = 0 then 0x20 else 0) 0
      by decide]
    refine word_congr fun k hk => ?_
    have hdiv : (404 * q + 372 + k) / 404 = q := by omega
    have hmod : (404 * q + 372 + k) % 404 = 372 + k := by omega
    rw [bootMem, procStateAt, hdiv, hmod, if_neg hnative]
    exact if_congr (by omega) rfl rfl

/-- The memory of the examples is one of boot. -/
theorem bootSys_boot : Boot bootSys := by
  refine ⟨fun q hq => ⟨⟨fun k hk => ?_, ?_, (nativeName_spec q hq).1⟩, rfl⟩,
    fun q hlt hge => ?_⟩
  · have hlen := (nativeName_spec q hq).2
    exact bootMem_name hq (by omega)
  · have hlen := (nativeName_spec q hq).2
    rw [show bootSys.mem = bootMem from rfl, bootMem_name hq (by omega)]
    exact List.getD_eq_default _ _ (Nat.le_refl _)
  · exact (bootMem_state q hlt).trans (if_neg (Nat.not_lt.mpr hge))

/-- Its tasks and native processes run. -/
theorem bootSys_running : Running bootSys 9 := bootMem_state

/-- The name of INIT's first child fits. -/
theorem names_fit_init : Fits bootSys (.fork 5) := by
  have hsize : (bootSys.history 5).size + (1 + decimals 9) < NAME_SIZE := by
    decide
  obtain ⟨s', -, -, hstep, -⟩ := reach_fork (.start bootSys_boot)
    bootSys_running (by omega) (by omega) hsize
  refine (names_fit (.start bootSys_boot) hstep).mpr fun c hc => ?_
  obtain rfl := Option.some.inj
    ((running_free bootSys_running (by omega)).symm.trans hc)
  exact hsize

/-- **THE FIFTH FORK**: INIT forks, its child forks, and so on.  The fifth
    child's name has 18 characters, and the last three bytes of the store are
    in `proc_state`. -/
theorem name_overflows : ∃ s s' w, Reach Boot Step Short s ∧
    Step s (.fork 12) s' ∧ stored 17 s (.fork 12) = some w ∧ w.pid = 13 ∧
    w.str = "INIT_9_10_11_12_13".toList.map ch ∧
    procState w.mem 13 = 0 ∧ procState w.after 13 ≠ 0 ∧
    ¬ Fits s (.fork 12) := by
  obtain ⟨s₁, h₁, hrun₁, -, hhist₁⟩ := reach_fork (p := 5)
    (.start bootSys_boot) bootSys_running (by omega) (by omega) (by decide)
  have hs₁ : s₁.history 9 = ⟨nativeName 5, [9]⟩ := by
    rw [hhist₁, Function.update_self]
    rfl
  obtain ⟨s₂, h₂, hrun₂, -, hhist₂⟩ := reach_fork (p := 9) h₁ hrun₁
    (by omega) (by omega) (by rw [hs₁]; decide)
  have hs₂ : s₂.history 10 = ⟨nativeName 5, [9, 10]⟩ := by
    rw [hhist₂, Function.update_self, hs₁]
    rfl
  obtain ⟨s₃, h₃, hrun₃, -, hhist₃⟩ := reach_fork (p := 10) h₂ hrun₂
    (by omega) (by omega) (by rw [hs₂]; decide)
  have hs₃ : s₃.history 11 = ⟨nativeName 5, [9, 10, 11]⟩ := by
    rw [hhist₃, Function.update_self, hs₂]
    rfl
  obtain ⟨s₄, h₄, hrun₄, -, hhist₄⟩ := reach_fork (p := 11) h₃ hrun₃
    (by omega) (by omega) (by rw [hs₃]; decide)
  have hs₄ : s₄.history 12 = ⟨nativeName 5, [9, 10, 11, 12]⟩ := by
    rw [hhist₄, Function.update_self, hs₃]
    rfl
  -- the name of process 12 fits, and it forks once more
  have hfind := running_free hrun₄ (show 13 < 37 by omega)
  have hlive : procState s₄.mem 12 ≠ FREE_SLOT := by
    rw [hrun₄ 12 (by omega), if_pos (by omega)]
    decide
  have hnamed := inv_reach h₄ 12 (by omega) hlive
  obtain ⟨w, hw⟩ := doForkName_exists (c := 13) hnamed (by omega)
  have hstored : stored 17 s₄ (.fork 12) = some w := by
    rw [stored, hfind]
    exact hw
  obtain ⟨hpid, hmem, hstr⟩ := str_doForkName hnamed (by omega) (by omega) hw
  have hname : w.str = "INIT_9_10_11_12_13".toList.map ch := by
    rw [hstr, hs₄]
    decide
  have hbefore : procState w.mem 13 = 0 := by
    rw [hmem, procState_copyProc, hrun₄ 12 (by omega), if_pos (by omega)]
  refine ⟨s₄, _, w, h₄, .fork (by omega) hlive hfind hw, hstored, hpid, hname,
    hbefore, ?_, fun hfits => ?_⟩
  · intro hzero
    have hbyte : w.after (procStateAt 13) = 0x31 := by
      rw [NameStore.after, hpid, strcpy, hname,
        show procStateAt 13 = nameAt 13 + 16 by rfl, put_at (by decide)]
      decide
    have hnat := KosFs.word_toNat w.after (procStateAt 13)
    rw [hbyte, show word w.after (procStateAt 13) = 0 from hzero] at hnat
    have hlow : (0x31 : Byte).toNat = 49 := rfl
    have hword : (0 : BitVec 32).toNat = 0 := rfl
    omega
  · have hlen := (hfits 17 w hstored).1
    rw [hname] at hlen
    exact absurd hlen (by decide)

end KosProcessNames
