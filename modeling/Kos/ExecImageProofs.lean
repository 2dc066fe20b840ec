import Kos.CStringProofs
import Kos.FileSystemProofs
import Kos.ForkMemoryProofs

/-! # `do_exec`

    `do_exec` of `task/pm/exec.c`: the file is read into `pm_buf`, its `PT_LOAD`
    segments are copied into the caller's segment, and the argument block of the
    caller is moved to the last KB of it.

    The only check on a program header is one sum of 32-bit words, of two fields
    that the copy does not use together.

    * a copy stays inside the caller's segment and the file exactly if the sums
      of the fields it uses do (`inside_iff_sound`);
    * so all copies do, as long as the headers that are read are `Sound`, and
      these are the headers of the file if no copy can reach them
      (`exec_copies_inside_iff`). -/

namespace KosExec

open FlatMemory GuardedRun KosKernel KosProcessManager KosForkMemory Overlay
  CString
open KosFs (word putWord word_putWord word_putWord_of_out)

/-! ## Constants of `process.h`, `elf.h` and `stdio.h` -/

/-- The bytes of `PROC_SIZE`. -/
def procSize : Nat := 0x100000

/-- Of `const.h` and `elf.h`. -/
def PROC_STACK_RESERVERD : Nat := 0x400
def PM_BUF_SIZE : Int := 0x100000
def MAX_PATH : Nat := 128
def PT_LOAD : BitVec 32 := 1

/-- `pm_buf`. -/
def pmBuf : Addr := 0x700000

/-- `PROC_SIZE - PROC_STACK_RESERVERD`. -/
def stackPointer : Addr := 0xFFC00

/-! ## The ELF file in `pm_buf` -/

/-- A half-word, the low byte first. -/
def readU16 (mem : Mem) (a : Addr) : BitVec 16 :=
  readBlock mem a 1 ++ readBlock mem a 0

/-! Fields of `Elf32_Ehdr`. -/

/-- `e_entry`. -/
def eEntry (mem : Mem) : BitVec 32 := readU32 mem (pmBuf + 24)

/-- `e_phoff`. -/
def ePhoff (mem : Mem) : BitVec 32 := readU32 mem (pmBuf + 28)

/-- `e_phentsize`. -/
def ePhentsize (mem : Mem) : BitVec 16 := readU16 mem (pmBuf + 42)

/-- `e_phnum`. -/
def ePhnum (mem : Mem) : BitVec 16 := readU16 mem (pmBuf + 44)

/-- The fields of `Elf32_Phdr` that `do_exec` reads. -/
structure Phdr where
  pType : BitVec 32
  pOffset : BitVec 32
  pVaddr : BitVec 32
  pFilesz : BitVec 32
  pMemsz : BitVec 32
  deriving DecidableEq, Repr

/-- The address of program header `i`. -/
def progHdr (mem : Mem) (i : Nat) : Addr :=
  pmBuf + ePhoff mem + BitVec.ofNat 32 i * (ePhentsize mem).setWidth 32

/-- Program header `i`. -/
def phdr (mem : Mem) (i : Nat) : Phdr where
  pType := readU32 mem (progHdr mem i)
  pOffset := readU32 mem (progHdr mem i + 4)
  pVaddr := readU32 mem (progHdr mem i + 8)
  pFilesz := readU32 mem (progHdr mem i + 16)
  pMemsz := readU32 mem (progHdr mem i + 20)

/-! ## `do_exec` -/

/-- One `phys_copy` of the loop, of `p_filesz` bytes. -/
structure Copied where
  hdr : Phdr
  dst : Addr
  src : Addr

/-- The loop over the program headers, from header `i` on, with the copies it
    makes.  `e_phnum` has 16 bits, and it is read again in every round. -/
def loadLoop (T : Table) (execPid : Int) :
    Nat → Nat → Mem → Except Halt (Mem × List Copied)
  | 0, _, mem => pure (mem, [])
  | fuel + 1, i, mem =>
      if i < (ePhnum mem).toNat then
        let h := phdr mem i
        if h.pType = PT_LOAD then do
          assert ((h.pVaddr + h.pMemsz).toNat < procSize)
          let dst ← procVa2la T execPid h.pVaddr
          let src ← procVa2la T TASK_PM (pmBuf + h.pOffset)
          let (mem', copies) ← loadLoop T execPid fuel (i + 1)
            (copyLoop mem dst src h.pFilesz.toNat)
          pure (mem', ⟨h, dst, src⟩ :: copies)
        else loadLoop T execPid fuel (i + 1) mem
      else pure (mem, [])

/-- The loop over the program headers. -/
def loadImage (T : Table) (execPid : Int) (mem : Mem) :
    Except Halt (Mem × List Copied) :=
  loadLoop T execPid 65536 0 mem

/-- The fields of `pm_msg` that `do_exec` reads. -/
structure ExecRequest where
  source : Int
  pathname : Addr
  nameLen : Int
  buf : Addr
  bufLen : Int

/-- The loop over the pointers in `stackcopy`, from pointer `argc` on.  Behind
    the array it goes on in whatever is there. -/
def relocate (delta : BitVec 32) :
    Nat → Nat → (Nat → Byte) → Except Halt ((Nat → Byte) × Nat)
  | 0, _, _ => .error .fault
  | n + 1, argc, b =>
      if word b (4 * argc) = 0 then pure (b, argc)
      else relocate delta n (argc + 1)
        (putWord b (4 * argc) (word b (4 * argc) + delta))

/-- From `argv_stack_len` on: the memory, `stackcopy` and `argc`.  PM's segment
    starts at 0, and `junk` is what its stack held before; a block that is longer
    than `stackcopy` goes over its end. -/
def setupStack (T : Table) (r : ExecRequest) (junk : Nat → Byte) (mem : Mem) :
    Except Halt (Mem × (Nat → Byte) × Nat) := do
  let src ← procVa2la T r.source r.buf
  if r.bufLen < 0 ∨ PROC_STACK_RESERVERD < r.bufLen then .error .fault
  else do
    let stackcopy := put junk 0 r.bufLen.toNat (readBlock mem src)
    let (stackcopy, argc) ←
      (if r.bufLen ≠ 0 then relocate (stackPointer - r.buf) 256 0 stackcopy
      else pure (stackcopy, 0))
    let dst ← procVa2la T r.source stackPointer
    pure (store mem dst r.bufLen.toNat stackcopy, stackcopy, argc)

/-- What `do_exec` leaves when it returns 0: the memory, the registers and the
    name of the caller.  The copies and `stackcopy` are for reference. -/
structure Image where
  mem : Mem
  ecx : BitVec 32
  eax : BitVec 32
  eip : BitVec 32
  esp : BitVec 32
  name : List Byte
  copies : List Copied
  stackcopy : Nat → Byte

/-- `do_exec` behind `close`: the file is in `pm_buf`. -/
def execFile (T : Table) (r : ExecRequest) (junk : Nat → Byte) (name : List Byte)
    (mem : Mem) : Except Halt Image := do
  let (mem₁, copies) ← loadImage T r.source mem
  let (mem₂, stackcopy, argc) ← setupStack T r junk mem₁
  pure { mem := mem₂, ecx := BitVec.ofNat 32 argc, eax := stackPointer
         eip := eEntry mem₂, esp := stackPointer, name, copies, stackcopy }

/-- The answers of FS: `stat` finds the size or fails, `open` fails with -1, and
    `read` gives the bytes. -/
structure Files where
  stat : List Byte → Option Int
  openFile : List Byte → Int
  read : List Byte → Nat → Byte

/-- **`do_exec`**.  With `none` it returns -1. -/
def doExec (fs : Files) (T : Table) (r : ExecRequest) (junk : Nat → Byte)
    (mem : Mem) : Except Halt (Option Image) := do
  assert (r.nameLen < MAX_PATH)
  let src ← procVa2la T r.source r.pathname
  if r.nameLen < 0 then .error .fault
  else
    let n := r.nameLen.toNat
    let pathname := Function.update (put junk 0 n (readBlock mem src)) n 0
    match readStr pathname MAX_PATH 0 with
    | none => .error .fault
    | some path =>
        match fs.stat path with
        | none => pure none
        | some size =>
            if fs.openFile path = -1 then pure none
            else do
              assert (size < PM_BUF_SIZE)
              let image ← execFile T r junk path
                (store mem pmBuf size.toNat (fs.read path))
              pure (some image)

/-! ## Copies -/

/-- The base of the data segment of a process. -/
def baseOf (T : Table) (pid : Int) : Addr := gdtLdtToBaseAddr (T pid).ldtRw

/-- The segment of the caller. -/
def InSegment (base x : Addr) : Prop := InBlock base procSize x

instance (base x : Addr) : Decidable (InSegment base x) :=
  inferInstanceAs (Decidable (InBlock _ _ _))

/-- Every byte of the copy lands in the segment and is read from the file. -/
def Copied.Inside (base : Addr) (fileSize : Int) (c : Copied) : Prop :=
  ∀ k < c.hdr.pFilesz.toNat, InSegment base (c.dst + BitVec.ofNat 32 k) ∧
    InBlock pmBuf fileSize.toNat (c.src + BitVec.ofNat 32 k)

/-- What a header has to say for that: the sums are those of the fields that the
    copy uses, and they do not wrap around. -/
def Phdr.Sound (fileSize : Int) (h : Phdr) : Prop :=
  h.pFilesz = 0 ∨
    (h.pVaddr.toNat + h.pFilesz.toNat ≤ procSize ∧
      (h.pOffset.toNat + h.pFilesz.toNat : Nat) ≤ fileSize)

instance (fileSize : Int) (h : Phdr) : Decidable (h.Sound fileSize) :=
  inferInstanceAs (Decidable (_ ∨ _))

section Copies

variable {base a x : Addr} {v : BitVec 32} {n m : Nat} {fileSize : Int}
  {h : Phdr} {T : Table} {p : Int} {mem mem' : Mem}

/-- A run of bytes from distance `v` on is in a block. -/
theorem inBlock_run (hn : 0 < n) (hsize : n < 4294967296)
    (hm : m < 4294967296) :
    (∀ k < n, InBlock a m (a + v + BitVec.ofNat 32 k)) ↔ v.toNat + n ≤ m := by
  have hdist : ∀ k < n, (a + v + BitVec.ofNat 32 k - a).toNat =
      (v.toNat + k) % 4294967296 := by
    intro k hk
    rw [show a + v + BitVec.ofNat 32 k - a = v + BitVec.ofNat 32 k by bv_omega,
      BitVec.toNat_add, BitVec.toNat_ofNat, Nat.mod_eq_of_lt (a := k) (by omega)]
  constructor
  · intro hall
    have hfirst := hall 0 hn
    rw [InBlock, hdist 0 hn] at hfirst
    by_contra hover
    -- the first byte behind the block
    have hlast := hall (m - v.toNat) (by omega)
    rw [InBlock, hdist _ (by omega)] at hlast
    omega
  · intro hsum k hk
    rw [InBlock, hdist k hk]
    omega

/-- **A COPY** is inside exactly if its header is sound. -/
theorem inside_iff_sound (hsize : fileSize < 4294967296) :
    (Copied.mk h (base + h.pVaddr) (pmBuf + h.pOffset)).Inside base fileSize ↔
      h.Sound fileSize := by
  by_cases hzero : h.pFilesz = 0
  · have hnone : h.pFilesz.toNat = 0 := by rw [hzero]; rfl
    refine iff_of_true (fun k hk => ?_) (Or.inl hzero)
    dsimp only at hk
    omega
  have hpos : 0 < h.pFilesz.toNat :=
    Nat.pos_of_ne_zero fun hz => hzero (BitVec.eq_of_toNat_eq hz)
  have hlt := h.pFilesz.isLt
  have hdst := inBlock_run (a := base) (v := h.pVaddr) (m := procSize) hpos hlt
    (by decide)
  have hsrc := inBlock_run (a := pmBuf) (v := h.pOffset) (m := fileSize.toNat)
    hpos hlt (by omega)
  rw [Phdr.Sound, or_iff_right hzero, Copied.Inside]
  dsimp only
  constructor
  · intro hall
    have h₁ := hdst.mp fun k hk => (hall k hk).1
    have h₂ := hsrc.mp fun k hk => (hall k hk).2
    exact ⟨h₁, by omega⟩
  · rintro ⟨h₁, h₂⟩ k hk
    exact ⟨hdst.mpr h₁ k hk, hsrc.mpr (by omega) k hk⟩

end Copies

/-! ## The loop -/

/-- Nothing has changed outside the caller's segment. -/
def Outside (base : Addr) (mem mem' : Mem) : Prop :=
  ∀ x, ¬ InSegment base x → mem' x = mem x

/-- What is read of the ELF header and of the program headers lies outside the
    caller's segment. -/
structure HeadersApart (base : Addr) (mem : Mem) : Prop where
  ehdr : ∀ k < 46, ¬ InSegment base (pmBuf + BitVec.ofNat 32 k)
  phdrs : ∀ i < (ePhnum mem).toNat, ∀ k < 24,
    ¬ InSegment base (progHdr mem i + BitVec.ofNat 32 k)

section Loop

variable {T : Table} {p : Int} {fuel i : Nat} {base a : Addr} {fileSize : Int}
  {mem mem₁ mem' : Mem} {copies : List Copied}

/-- **A ROUND** of the loop: it is over, or it skips a header, or copies what a
    header says. -/
theorem loadLoop_eq_ok :
    loadLoop T p (fuel + 1) i mem = .ok (mem', copies) ↔
      ((ePhnum mem).toNat ≤ i ∧ mem' = mem ∧ copies = []) ∨
      (i < (ePhnum mem).toNat ∧ (phdr mem i).pType ≠ PT_LOAD ∧
        loadLoop T p fuel (i + 1) mem = .ok (mem', copies)) ∨
      (i < (ePhnum mem).toNat ∧ (phdr mem i).pType = PT_LOAD ∧
        ((phdr mem i).pVaddr + (phdr mem i).pMemsz).toNat < procSize ∧
        (p < NR_TASKS_NATIVE + NR_PROCS_NATIVE → baseOf T p = 0) ∧
        baseOf T TASK_PM = 0 ∧
        ∃ rest, copies = ⟨phdr mem i, baseOf T p + (phdr mem i).pVaddr,
            pmBuf + (phdr mem i).pOffset⟩ :: rest ∧
          loadLoop T p fuel (i + 1) (copyLoop mem
            (baseOf T p + (phdr mem i).pVaddr) (pmBuf + (phdr mem i).pOffset)
            (phdr mem i).pFilesz.toNat) = .ok (mem', rest)) := by
  have hpm : TASK_PM < NR_TASKS_NATIVE + NR_PROCS_NATIVE := by decide
  rw [loadLoop]
  by_cases hi : i < (ePhnum mem).toNat
  · rw [if_pos hi, or_iff_right (by omega)]
    by_cases htype : (phdr mem i).pType = PT_LOAD
    · simp only [htype, hi, if_true, true_and, bind_eq_ok, assert_eq_ok,
        procVa2la_eq_ok, pure_eq_ok, exists_const, ne_eq, not_true,
        false_and, false_or, Prod.mk.injEq, hpm, forall_const]
      constructor
      · rintro ⟨hguard, dst, ⟨rfl, hbase⟩, src, ⟨rfl, hflat⟩, ⟨m, rest⟩, hrun,
          rfl, rfl⟩
        -- TASK_PM is flat: its linear addresses are its virtual ones
        have hsrc : gdtLdtToBaseAddr (T TASK_PM).ldtRw + (pmBuf +
            (phdr mem i).pOffset) = pmBuf + (phdr mem i).pOffset := by
          rw [hflat]
          exact BitVec.zero_add _
        rw [hsrc] at hrun ⊢
        exact ⟨hguard, hbase, hflat, rest, rfl, hrun⟩
      · rintro ⟨hguard, hbase, hflat, rest, rfl, hrun⟩
        have hsrc : gdtLdtToBaseAddr (T TASK_PM).ldtRw + (pmBuf +
            (phdr mem i).pOffset) = pmBuf + (phdr mem i).pOffset := by
          rw [show gdtLdtToBaseAddr (T TASK_PM).ldtRw = 0 from hflat]
          exact BitVec.zero_add _
        refine ⟨hguard, _, ⟨rfl, hbase⟩, _, ⟨rfl, hflat⟩, (mem', rest), ?_, rfl,
          ?_⟩
        · rw [hsrc]
          exact hrun
        · rw [hsrc]
          rfl
    · simp only [htype, hi, if_false, true_and, ne_eq, not_false_eq_true,
        false_and, or_false]
  · rw [if_neg hi, pure_eq_ok, Prod.mk.injEq]
    simp only [hi, false_and, or_false, Nat.not_lt.mp hi, true_and]
    exact and_congr eq_comm eq_comm

/-- Where a copy goes to and comes from. -/
theorem loadLoop_form : ∀ {fuel i : Nat} {mem : Mem} {copies : List Copied},
    loadLoop T p fuel i mem = .ok (mem', copies) → ∀ c ∈ copies,
      c = ⟨c.hdr, baseOf T p + c.hdr.pVaddr, pmBuf + c.hdr.pOffset⟩ := by
  intro fuel
  induction fuel with
  | zero =>
      intro i mem copies hrun c hc
      cases hrun
      cases hc
  | succ fuel ih =>
      intro i mem copies hrun c hc
      rcases loadLoop_eq_ok.mp hrun with ⟨-, -, rfl⟩ | ⟨-, -, hnext⟩ |
        ⟨-, -, -, -, -, rest, rfl, hnext⟩
      · cases hc
      · exact ih hnext c hc
      · rcases List.mem_cons.mp hc with rfl | hc
        · rfl
        · exact ih hnext c hc

/-- A word outside the segment. -/
theorem readU32_same (off : Nat) (ho : Outside base mem mem')
    (h : ∀ k < 4, ¬ InSegment base (a + BitVec.ofNat 32 (off + k))) :
    readU32 mem' (a + BitVec.ofNat 32 off) =
      readU32 mem (a + BitVec.ofNat 32 off) := by
  refine readU32_congr fun k hk => ho _ ?_
  rw [BitVec.add_assoc, ← BitVec.ofNat_add]
  exact h k hk

theorem readU16_same (off : Nat) (ho : Outside base mem mem')
    (h : ∀ k < 2, ¬ InSegment base (a + BitVec.ofNat 32 (off + k))) :
    readU16 mem' (a + BitVec.ofNat 32 off) =
      readU16 mem (a + BitVec.ofNat 32 off) := by
  have hbyte : ∀ k < 2, readBlock mem' (a + BitVec.ofNat 32 off) k =
      readBlock mem (a + BitVec.ofNat 32 off) k := by
    intro k hk
    refine ho _ ?_
    rw [BitVec.add_assoc, ← BitVec.ofNat_add]
    exact h k hk
  rw [readU16, readU16, hbyte 0 (by decide), hbyte 1 (by decide)]

/-- Copies into the caller's segment leave the headers as they are. -/
theorem headers_same (hap : HeadersApart base mem) (ho : Outside base mem mem') :
    ePhnum mem' = ePhnum mem ∧
      ∀ i < (ePhnum mem).toNat, phdr mem' i = phdr mem i := by
  have hoff : ePhoff mem' = ePhoff mem :=
    readU32_same 28 ho fun k hk => hap.ehdr _ (by omega)
  have hsize : ePhentsize mem' = ePhentsize mem :=
    readU16_same 42 ho fun k hk => hap.ehdr _ (by omega)
  refine ⟨readU16_same 44 ho fun k hk => hap.ehdr _ (by omega),
    fun i hi => ?_⟩
  have hprog : progHdr mem' i = progHdr mem i := by
    rw [progHdr, progHdr, hoff, hsize]
  have hfield : ∀ off ≤ 20,
      readU32 mem' (progHdr mem i + BitVec.ofNat 32 off) =
        readU32 mem (progHdr mem i + BitVec.ofNat 32 off) :=
    fun off hle => readU32_same off ho fun k hk => hap.phdrs i hi _ (by omega)
  have hfirst := hfield 0 (by omega)
  rw [BitVec.add_zero] at hfirst
  rw [phdr, phdr, hprog, hfirst,
    show readU32 mem' (progHdr mem i + 4) = _ from hfield 4 (by omega),
    show readU32 mem' (progHdr mem i + 8) = _ from hfield 8 (by omega),
    show readU32 mem' (progHdr mem i + 16) = _ from hfield 16 (by omega),
    show readU32 mem' (progHdr mem i + 20) = _ from hfield 20 (by omega)]
  rfl

/-- A copy of a header that fits writes into the segment. -/
theorem inSegment_of_copy {h : Phdr} {x : Addr}
    (hfit : h.pFilesz = 0 ∨ h.pVaddr.toNat + h.pFilesz.toNat ≤ procSize)
    (hin : InBlock (base + h.pVaddr) h.pFilesz.toNat x) : InSegment base x := by
  have hlt := h.pFilesz.isLt
  rw [inBlock_offset (by omega)] at hin
  obtain ⟨k, hk, rfl⟩ := hin
  rcases hfit with hzero | hfit
  · rw [hzero] at hk
    exact absurd hk (Nat.not_lt_zero k)
  · exact (inBlock_run (by omega) hlt (by decide)).mpr hfit k hk

theorem outside_copy {h : Phdr} (ho : Outside base mem mem₁)
    (hfit : h.pFilesz = 0 ∨ h.pVaddr.toNat + h.pFilesz.toNat ≤ procSize) :
    Outside base mem (copyLoop mem₁ (base + h.pVaddr) a h.pFilesz.toNat) := by
  have hlt := h.pFilesz.isLt
  intro x hx
  rw [copyLoop_out (by omega) fun hin => hx (inSegment_of_copy hfit hin), ho x hx]

/-- **A RUN** over headers that no copy into the segment can change.  The
    induction is on the rounds that are left; the first header that is not sound
    has a copy that is not inside. -/
theorem loadLoop_inside (hsize : fileSize < 4294967296)
    (hap : HeadersApart (baseOf T p) mem) :
    ∀ {fuel i : Nat} {mem₁ : Mem} {copies : List Copied},
      Outside (baseOf T p) mem mem₁ → 65536 ≤ fuel + i →
      loadLoop T p fuel i mem₁ = .ok (mem', copies) →
      ((∀ c ∈ copies, c.Inside (baseOf T p) fileSize) ↔
        ∀ j, i ≤ j → j < (ePhnum mem).toNat → (phdr mem j).pType = PT_LOAD →
          (phdr mem j).Sound fileSize) := by
  have hmax := (ePhnum mem).isLt
  intro fuel
  induction fuel with
  | zero =>
      intro i mem₁ copies _ hfuel hrun
      cases hrun
      exact iff_of_true (fun c hc => absurd hc List.not_mem_nil)
        fun j hij hj => by omega
  | succ fuel ih =>
      intro i mem₁ copies ho hfuel hrun
      obtain ⟨hnum, hhdr⟩ := headers_same hap ho
      rcases loadLoop_eq_ok.mp hrun with ⟨hend, -, rfl⟩ | ⟨hi, htype, hnext⟩ |
        ⟨hi, htype, -, -, -, rest, rfl, hnext⟩
      · rw [hnum] at hend
        exact iff_of_true (fun c hc => absurd hc List.not_mem_nil)
          fun j hij hj => by omega
      · rw [hnum] at hi
        rw [hhdr i hi] at htype
        rw [ih ho (by omega) hnext]
        constructor
        · intro hall j hij hj hload
          rcases Nat.eq_or_lt_of_le hij with rfl | hlt
          · exact absurd hload htype
          · exact hall j hlt hj hload
        · exact fun hall j hij hj => hall j (by omega) hj
      · rw [hnum] at hi
        rw [hhdr i hi] at htype hnext ⊢
        rw [List.forall_mem_cons, inside_iff_sound hsize]
        -- a sound header is copied outside the headers, so the next round
        -- reads the same ones; after an unsound one nothing matters
        by_cases hsound : (phdr mem i).Sound fileSize
        · have ho' := outside_copy (a := pmBuf + (phdr mem i).pOffset) ho
            (hsound.imp_right And.left)
          rw [and_iff_right hsound, ih ho' (by omega) hnext]
          constructor
          · intro hall j hij hj hload
            rcases Nat.eq_or_lt_of_le hij with rfl | hlt
            · exact hsound
            · exact hall j hlt hj hload
          · exact fun hall j hij hj => hall j (by omega) hj
        · exact iff_of_false (fun h => hsound h.1)
            fun hall => hsound (hall i (Nat.le_refl i) hi htype)

end Loop

/-! ## Where the headers are -/

/-- Where the segment of a process is: from 0 on, or above every buffer. -/
def SegmentPlace (base : Addr) : Prop :=
  base = 0 ∨ (0xA00000 ≤ base.toNat ∧ base.toNat + procSize ≤ 4294967296)

section Place

variable {base : Addr} {mem : Mem} {T : Table} {p : Int} {s : Pm} {i : Nat}

/-- The segments are so in every state of every run. -/
theorem segmentPlace_reach (h : Reach Boot Step free s) (hp : InTable p)
    (hnative : p < NR_TASKS_NATIVE + NR_PROCS_NATIVE → baseOf s.table p = 0) :
    SegmentPlace (baseOf s.table p) := by
  by_cases hlt : p < NR_TASKS_NATIVE + NR_PROCS_NATIVE
  · exact Or.inl (hnative hlt)
  · have hge : NR_TASKS_NATIVE + NR_PROCS_NATIVE ≤ p := by omega
    have hbase : segBase (s.table p).ldtRw = (baseOf s.table p).toNat := rfl
    rcases (placed_reach h).forked p hp hge with hun | hslot
    · refine Or.inl (BitVec.eq_of_toNat_eq ?_)
      rw [← hbase, (inLdt_unused (Or.inr rfl) hun).1]
      rfl
    · obtain ⟨hnat, hlo, hhi⟩ := slotBase_bounds hp hge
      have hslotBase := (inLdt_slot (Or.inr rfl) hslot).1
      rw [hbase, hnat] at hslotBase
      rw [SegmentPlace, hslotBase, procSize]
      omega

/-- `pm_buf` is no part of any of them. -/
theorem not_inSegment_pmBuf (hbase : SegmentPlace base) {d : Nat}
    (hd : d < 0x100000) : ¬ InSegment base (pmBuf + BitVec.ofNat 32 d) := by
  have hnat : (pmBuf + BitVec.ofNat 32 d).toNat = 0x700000 + d := by
    rw [BitVec.toNat_add, BitVec.toNat_ofNat, pmBuf,
      show BitVec.toNat (0x700000 : Addr) = 0x700000 from rfl]
    omega
  rw [InSegment, InBlock, BitVec.toNat_sub, hnat, procSize]
  rcases hbase with rfl | ⟨hlo, hhi⟩
  · rw [show BitVec.toNat (0 : Addr) = 0 from rfl]
    omega
  · rw [procSize] at hhi
    omega

/-- The place of a program header in the file. -/
theorem progHdr_eq (hi : i < 65536) : progHdr mem i = pmBuf +
    BitVec.ofNat 32 ((ePhoff mem).toNat + i * (ePhentsize mem).toNat) := by
  have hsize := (ePhentsize mem).isLt
  rw [progHdr, BitVec.add_assoc]
  congr 1
  apply BitVec.eq_of_toNat_eq
  rw [BitVec.toNat_add, BitVec.toNat_mul, BitVec.toNat_setWidth,
    BitVec.toNat_ofNat, BitVec.toNat_ofNat, Nat.mod_eq_of_lt (a := i) (by omega),
    Nat.mod_eq_of_lt (a := (ePhentsize mem).toNat) (by omega), Nat.add_mod_mod]

/-- A table of program headers in `pm_buf` is apart from the segment. -/
theorem headersApart_of_table (hbase : SegmentPlace base)
    (hsize : 24 ≤ (ePhentsize mem).toNat)
    (htable : (ePhoff mem).toNat + (ePhnum mem).toNat * (ePhentsize mem).toNat ≤
      0x100000) : HeadersApart base mem := by
  have hnum := (ePhnum mem).isLt
  refine ⟨fun k hk => not_inSegment_pmBuf hbase (by omega), fun i hi k hk => ?_⟩
  have hlast : i * (ePhentsize mem).toNat + (ePhentsize mem).toNat ≤
      (ePhnum mem).toNat * (ePhentsize mem).toNat := by
    rw [← Nat.succ_mul]
    exact Nat.mul_le_mul_right _ hi
  rw [progHdr_eq (by omega), BitVec.add_assoc, ← BitVec.ofNat_add]
  exact not_inSegment_pmBuf hbase (by omega)

end Place

/-! ## The argument block -/

section Stack

variable {T : Table} {r : ExecRequest} {junk block : Nat → Byte} {mem mem' : Mem}
  {argc : Nat}

/-- What `setupStack` leaves. -/
theorem setupStack_eq_ok
    (h : setupStack T r junk mem = .ok (mem', block, argc)) :
    (r.source < NR_TASKS_NATIVE + NR_PROCS_NATIVE → baseOf T r.source = 0) ∧
      0 ≤ r.bufLen ∧ r.bufLen ≤ 0x400 ∧
      mem' = store mem (baseOf T r.source + stackPointer) r.bufLen.toNat block ∧
      (r.bufLen ≠ 0 → relocate (stackPointer - r.buf) 256 0
        (put junk 0 r.bufLen.toNat (readBlock mem (baseOf T r.source + r.buf))) =
          .ok (block, argc)) := by
  simp only [setupStack, bind_eq_ok] at h
  obtain ⟨src, hsrc, h⟩ := h
  obtain ⟨rfl, hbase⟩ := procVa2la_eq_ok.mp hsrc
  split at h
  · cases h
  · rename_i hlen
    rw [PROC_STACK_RESERVERD] at hlen
    simp only [bind_eq_ok, pure_eq_ok, Prod.mk.injEq] at h
    obtain ⟨⟨stackcopy, n⟩, hmoved, dst, hdst, rfl, rfl, rfl⟩ := h
    obtain ⟨rfl, -⟩ := procVa2la_eq_ok.mp hdst
    refine ⟨hbase, by omega, by omega, rfl, fun hne => ?_⟩
    rw [if_pos hne] at hmoved
    exact hmoved

/-- With arguments it is the move that counts. -/
theorem setupStack_run (hpos : 0 < r.bufLen) (hlen : r.bufLen ≤ 0x400)
    (hbase : r.source < NR_TASKS_NATIVE + NR_PROCS_NATIVE →
      baseOf T r.source = 0)
    (hmove : relocate (stackPointer - r.buf) 256 0
      (put junk 0 r.bufLen.toNat (readBlock mem (baseOf T r.source + r.buf))) =
        .ok (block, argc)) :
    setupStack T r junk mem = .ok (store mem (baseOf T r.source + stackPointer)
      r.bufLen.toNat block, block, argc) := by
  have hla : ∀ va, procVa2la T r.source va = .ok (baseOf T r.source + va) :=
    fun va => procVa2la_eq_ok.mpr ⟨rfl, hbase⟩
  have hfits : ¬ (r.bufLen < 0 ∨ (PROC_STACK_RESERVERD : Int) < r.bufLen) := by
    rw [PROC_STACK_RESERVERD]
    omega
  simp only [setupStack, bind_eq_ok, hla]
  refine ⟨_, rfl, ?_⟩
  rw [if_neg hfits]
  simp only [bind_eq_ok, pure_eq_ok]
  refine ⟨(block, argc), ?_, _, rfl, rfl⟩
  rw [if_pos (show r.bufLen ≠ 0 by omega), hmove]

/-- Without arguments there is nothing to copy. -/
theorem setupStack_none (hlen : r.bufLen = 0)
    (hbase : r.source < NR_TASKS_NATIVE + NR_PROCS_NATIVE →
      baseOf T r.source = 0) :
    setupStack T r junk mem = .ok (mem, junk, 0) := by
  have hla : ∀ va, procVa2la T r.source va = .ok (baseOf T r.source + va) :=
    fun va => procVa2la_eq_ok.mpr ⟨rfl, hbase⟩
  have hstore : ∀ a f, store mem a 0 f = mem :=
    fun a f => funext fun x => store_out (Nat.not_lt_zero _)
  rw [setupStack, hla, hla, hlen]
  show Except.ok (store mem _ 0 (put junk 0 0 _), put junk 0 0 _, 0) = _
  rw [hstore, put_zero]

end Stack

/-! ## What the loop copies -/

section Copying

variable {T : Table} {p : Int} {mem mem' : Mem} {copies : List Copied}
  {fileSize : Int} {fs : Files} {r : ExecRequest} {junk : Nat → Byte}
  {name : List Byte} {image : Image}

/-- What is in `pm_buf` when `do_exec` comes to the headers. -/
theorem doExec_eq_some (h : doExec fs T r junk mem = .ok (some image)) :
    ∃ path size, fs.stat path = some size ∧ size < PM_BUF_SIZE ∧
      execFile T r junk path (store mem pmBuf size.toNat (fs.read path)) =
        .ok image := by
  simp only [doExec, bind_eq_ok, assert_eq_ok] at h
  obtain ⟨-, -, src, -, h⟩ := h
  split at h
  · cases h
  · split at h
    · cases h
    · rename_i path hpath
      split at h
      · cases pure_eq_ok.mp h
      · rename_i size hsize
        split at h
        · cases pure_eq_ok.mp h
        · simp only [bind_eq_ok, assert_eq_ok, pure_eq_ok] at h
          obtain ⟨-, hlt, image', hrun, himage⟩ := h
          obtain rfl := Option.some.inj himage
          exact ⟨path, size, hsize, hlt, hrun⟩

/-- The loop is the first thing that happens then. -/
theorem execFile_eq_ok : execFile T r junk name mem = .ok image ↔
    ∃ mem₁ copies mem₂ block argc, loadImage T r.source mem = .ok (mem₁, copies) ∧
      setupStack T r junk mem₁ = .ok (mem₂, block, argc) ∧
      image = ⟨mem₂, BitVec.ofNat 32 argc, stackPointer, eEntry mem₂,
        stackPointer, name, copies, block⟩ := by
  simp only [execFile, bind_eq_ok, pure_eq_ok]
  constructor
  · rintro ⟨⟨mem₁, copies⟩, hload, ⟨mem₂, block, argc⟩, hstack, rfl⟩
    exact ⟨mem₁, copies, mem₂, block, argc, hload, hstack, rfl⟩
  · rintro ⟨mem₁, copies, mem₂, block, argc, hload, hstack, rfl⟩
    exact ⟨(mem₁, copies), hload, (mem₂, block, argc), hstack, rfl⟩

/-- **EXEC COPIES** inside the caller's segment and the file exactly if every
    header is sound that the loop copies for, as it is when it is read; these are
    the `PT_LOAD` headers of the file, unless they lie in the caller's segment. -/
theorem exec_copies_inside_iff (hsize : fileSize < PM_BUF_SIZE)
    (hrun : loadImage T p mem = .ok (mem', copies)) :
    ((∀ c ∈ copies, c.Inside (baseOf T p) fileSize) ↔
      ∀ c ∈ copies, c.hdr.Sound fileSize) ∧
    (HeadersApart (baseOf T p) mem →
      ((∀ c ∈ copies, c.Inside (baseOf T p) fileSize) ↔
        ∀ i < (ePhnum mem).toNat, (phdr mem i).pType = PT_LOAD →
          (phdr mem i).Sound fileSize)) := by
  have hlt : fileSize < 4294967296 := by
    rw [PM_BUF_SIZE] at hsize
    omega
  constructor
  · refine forall_congr' fun c => forall_congr' fun hc => ?_
    rw [loadLoop_form hrun c hc]
    exact inside_iff_sound hlt
  · intro hap
    rw [loadLoop_inside hlt hap (fun _ _ => rfl) (by omega) hrun]
    exact ⟨fun hall i hi => hall i (Nat.zero_le i) hi, fun hall i _ hi => hall i hi⟩

/-- So what `do_exec` copies is inside exactly if the headers are sound that it
    copies for. -/
theorem doExec_copies (h : doExec fs T r junk mem = .ok (some image)) :
    ∃ path size, fs.stat path = some size ∧
      ((∀ c ∈ image.copies, c.Inside (baseOf T r.source) size) ↔
        ∀ c ∈ image.copies, c.hdr.Sound size) := by
  obtain ⟨path, size, hstat, hlt, hrun⟩ := doExec_eq_some h
  obtain ⟨mem₁, copies, _, _, _, hload, -, rfl⟩ := execFile_eq_ok.mp hrun
  refine ⟨path, size, hstat, forall_congr' fun c => forall_congr' fun hc => ?_⟩
  rw [loadLoop_form hload c hc]
  refine inside_iff_sound ?_
  rw [PM_BUF_SIZE] at hlt
  omega

end Copying

/-! ## A file with one program header -/

/-- The headers of a file: `e_phoff` is 52, `e_phentsize` 32 and `e_phnum` 1. -/
def elfBytes (h : Phdr) : Nat → Byte :=
  putWord (putWord (putWord (putWord (putWord (putWord (putWord (putWord
    (fun _ => 0) 28 52) 40 0x00200034) 44 1) 52 h.pType) 56 h.pOffset)
    60 h.pVaddr) 68 h.pFilesz) 72 h.pMemsz

/-- The first `n` bytes of the file in `pm_buf`. -/
def elfMem (mem : Mem) (n : Nat) (h : Phdr) : Mem :=
  store mem pmBuf n (elfBytes h)

section OneHeader

variable {mem mem' : Mem} {n o : Nat} {h : Phdr} {T : Table} {p : Int}
  {f : Nat → Byte} {a : Addr}

theorem readU32_store (hn : n ≤ 4294967296) (ho : o + 4 ≤ n) :
    readU32 (store mem a n f) (a + BitVec.ofNat 32 o) = word f o := by
  have hbyte : ∀ k < 4, readBlock (store mem a n f) (a + BitVec.ofNat 32 o) k =
      f (o + k) := by
    intro k hk
    rw [readBlock, BitVec.add_assoc, ← BitVec.ofNat_add]
    exact readBlock_store hn (by omega)
  rw [readU32, hbyte 3 (by omega), hbyte 2 (by omega), hbyte 1 (by omega),
    hbyte 0 (by omega), word]
  rfl

theorem readU16_store (hn : n ≤ 4294967296) (ho : o + 2 ≤ n) :
    readU16 (store mem a n f) (a + BitVec.ofNat 32 o) = f (o + 1) ++ f o := by
  have hbyte : ∀ k < 2, readBlock (store mem a n f) (a + BitVec.ofNat 32 o) k =
      f (o + k) := by
    intro k hk
    rw [readBlock, BitVec.add_assoc, ← BitVec.ofNat_add]
    exact readBlock_store hn (by omega)
  rw [readU16, hbyte 1 (by omega), hbyte 0 (by omega)]
  rfl

/-- The header is read back. -/
theorem headers_elfMem (mem : Mem) (h : Phdr) (hn : 84 ≤ n)
    (hmax : n ≤ 4294967296) :
    ePhnum (elfMem mem n h) = 1 ∧ ePhentsize (elfMem mem n h) = 32 ∧
      ePhoff (elfMem mem n h) = 52 ∧ phdr (elfMem mem n h) 0 = h := by
  -- the words of the file lie apart from each other
  have hoff : ePhoff (elfMem mem n h) = 52 := by
    refine (readU32_store hmax (o := 28) (by omega)).trans ?_
    simp (disch := omega) only [elfBytes, word_putWord_of_out, word_putWord]
  have hfield : ∀ o, o + 4 ≤ 32 → readU32 (elfMem mem n h)
      (progHdr (elfMem mem n h) 0 + BitVec.ofNat 32 o) =
        word (elfBytes h) (52 + o) := by
    intro o ho
    have haddr : progHdr (elfMem mem n h) 0 + BitVec.ofNat 32 o =
        pmBuf + BitVec.ofNat 32 (52 + o) := by
      rw [progHdr, hoff, BitVec.ofNat_add, ← BitVec.add_assoc]
      congr 1
      rw [BitVec.zero_mul, BitVec.add_zero]
      rfl
    rw [haddr]
    exact readU32_store hmax (by omega)
  have hnum : elfBytes h 45 ++ elfBytes h 44 = 1#16 := by
    simp [elfBytes, putWord, put, KosFs.bytesOf]
  have hsize : elfBytes h 43 ++ elfBytes h 42 = 32#16 := by
    simp [elfBytes, putWord, put, KosFs.bytesOf]
  refine ⟨(readU16_store hmax (o := 44) (by omega)).trans hnum,
    (readU16_store hmax (o := 42) (by omega)).trans hsize, hoff, ?_⟩
  have hfirst := hfield 0 (by omega)
  rw [BitVec.add_zero] at hfirst
  rw [phdr, hfirst,
    show readU32 _ (progHdr (elfMem mem n h) 0 + 4) = _ from hfield 4 (by omega),
    show readU32 _ (progHdr (elfMem mem n h) 0 + 8) = _ from hfield 8 (by omega),
    show readU32 _ (progHdr (elfMem mem n h) 0 + 16) = _ from
      hfield 16 (by omega),
    show readU32 _ (progHdr (elfMem mem n h) 0 + 20) = _ from
      hfield 20 (by omega)]
  simp (disch := omega) only [elfBytes, word_putWord_of_out, word_putWord]

/-- The run over one header. -/
theorem loadImage_one (hnum : ePhnum mem = 1) (hload : (phdr mem 0).pType = PT_LOAD)
    (hguard : ((phdr mem 0).pVaddr + (phdr mem 0).pMemsz).toNat < procSize)
    (hp : p < NR_TASKS_NATIVE + NR_PROCS_NATIVE → baseOf T p = 0)
    (hpm : baseOf T TASK_PM = 0)
    (hmem : mem' = copyLoop mem (baseOf T p + (phdr mem 0).pVaddr)
      (pmBuf + (phdr mem 0).pOffset) (phdr mem 0).pFilesz.toNat)
    (hnum' : ePhnum mem' = 1) :
    loadImage T p mem = .ok (mem', [⟨phdr mem 0,
      baseOf T p + (phdr mem 0).pVaddr, pmBuf + (phdr mem 0).pOffset⟩]) := by
  have hone : BitVec.toNat (1 : BitVec 16) = 1 := rfl
  show loadLoop T p (65535 + 1) 0 mem = _
  refine loadLoop_eq_ok.mpr (Or.inr (Or.inr ⟨?_, hload, hguard, hp, hpm, [], rfl,
    ?_⟩))
  · rw [hnum, hone]
    exact Nat.one_pos
  · rw [← hmem]
    have hlast : (ePhnum mem').toNat = 1 :=
      (congrArg BitVec.toNat hnum').trans hone
    exact loadLoop_eq_ok.mpr (Or.inl ⟨Nat.le_of_eq hlast, rfl, rfl⟩)

/-- The file with one header is loaded, if its segment fits. -/
theorem loadImage_elf (mem : Mem) (h : Phdr) (hn : 84 ≤ n) (hmax : n ≤ 0x100000)
    (hplace : SegmentPlace (baseOf T p)) (hload : h.pType = PT_LOAD)
    (hfit : h.pFilesz = 0 ∨ h.pVaddr.toNat + h.pFilesz.toNat ≤ procSize)
    (hguard : (h.pVaddr + h.pMemsz).toNat < procSize)
    (hp : p < NR_TASKS_NATIVE + NR_PROCS_NATIVE → baseOf T p = 0)
    (hpm : baseOf T TASK_PM = 0) :
    HeadersApart (baseOf T p) (elfMem mem n h) ∧
      loadImage T p (elfMem mem n h) =
        .ok (copyLoop (elfMem mem n h) (baseOf T p + h.pVaddr)
          (pmBuf + h.pOffset) h.pFilesz.toNat,
          [⟨h, baseOf T p + h.pVaddr, pmBuf + h.pOffset⟩]) := by
  obtain ⟨hnum, hsize, hoff, hhdr⟩ := headers_elfMem mem h hn
    (by omega)
  have hap : HeadersApart (baseOf T p) (elfMem mem n h) := by
    refine headersApart_of_table hplace ?_ ?_
    · rw [hsize]
      decide
    · rw [hoff, hnum, hsize]
      decide
  refine ⟨hap, ?_⟩
  have hsame := headers_same hap (outside_copy (a := pmBuf + h.pOffset)
    (fun _ _ => rfl) hfit)
  have hrun := loadImage_one (T := T) (p := p) hnum (by rw [hhdr]; exact hload)
    (by rw [hhdr]; exact hguard) hp hpm rfl
    (by rw [hhdr, hsame.1, hnum])
  rw [hhdr] at hrun
  exact hrun

end OneHeader

/-! ## Two files -/

theorem baseOf_forked : baseOf forkedPm.table 9 = 0xA00000 ∧
    baseOf forkedPm.table TASK_PM = 0 := by
  constructor
  · decide +kernel
  · decide +kernel

theorem slotPlace : SegmentPlace (baseOf forkedPm.table 9) := by
  rw [baseOf_forked.1]
  exact Or.inr (by decide)

theorem notNative : (9 : Int) < NR_TASKS_NATIVE + NR_PROCS_NATIVE →
    baseOf forkedPm.table 9 = 0 := fun h => absurd h (by decide)

/-- Process 9 runs a file whose header fits. -/
theorem exec_copies_inside_iff_small :
    ∃ mem' copies, loadImage forkedPm.table 9
        (elfMem (fun _ => 0) 84 ⟨PT_LOAD, 0, 0x1000, 84, 0x2000⟩) =
          .ok (mem', copies) ∧
      ∀ c ∈ copies, c.Inside (baseOf forkedPm.table 9) 84 := by
  obtain ⟨-, hrun⟩ := loadImage_elf (fun _ => 0)
    ⟨PT_LOAD, 0, 0x1000, 84, 0x2000⟩ (n := 84) (T := forkedPm.table) (p := 9)
    (by decide) (by decide) slotPlace rfl (Or.inr (by decide)) (by decide)
    notNative baseOf_forked.2
  refine ⟨_, _, hrun,
    (exec_copies_inside_iff (by decide) hrun).1.mpr fun c hc => ?_⟩
  obtain rfl := List.mem_singleton.mp hc
  decide

/-- The sum of the check wraps around: the 16 bytes land below the segment. -/
theorem exec_writes_outside : ∃ mem' copies, loadImage forkedPm.table 9
      (elfMem (fun _ => 0) 84 ⟨PT_LOAD, 0, 0xFFFFFFF0, 16, 16⟩) =
        .ok (mem', copies) ∧
    ¬ ∀ c ∈ copies, c.Inside (baseOf forkedPm.table 9) 84 := by
  obtain ⟨hbase, hpm⟩ := baseOf_forked
  obtain ⟨mem, hmem⟩ : ∃ mem, mem = elfMem (fun _ => 0) 84
    ⟨PT_LOAD, 0, 0xFFFFFFF0, 16, 16⟩ := ⟨_, rfl⟩
  obtain ⟨hnum, -, -, hhdr⟩ := headers_elfMem (fun _ => 0)
    ⟨PT_LOAD, 0, 0xFFFFFFF0, 16, 16⟩ (n := 84) (by decide) (by decide)
  rw [← hmem] at hnum hhdr ⊢
  have hnum' : ePhnum (copyLoop mem (baseOf forkedPm.table 9 + 0xFFFFFFF0)
      (pmBuf + 0) 16) = 1 := by
    rw [hbase, ← hnum]
    refine congrArg₂ (· ++ ·) (copyLoop_out (by decide) ?_)
      (copyLoop_out (by decide) ?_)
    · decide
    · decide
  refine ⟨_, _, loadImage_one hnum (by rw [hhdr]) (by rw [hhdr]; decide)
    notNative hpm rfl (by rw [hhdr]; exact hnum'), ?_⟩
  intro hall
  have hinside := (hall _ List.mem_cons_self) 0 (by rw [hhdr]; decide)
  rw [hhdr, hbase] at hinside
  exact absurd hinside.1 (by decide)

end KosExec
