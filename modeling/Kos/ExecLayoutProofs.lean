import Kos.ExecImageProofs

/-! # The image of a new program

    `do_exec` lays the `PT_LOAD` segments of a file over what the caller's
    segment held before, and the argument block over both.  It copies `p_filesz`
    bytes of a segment; the bytes up to `p_memsz` keep what was there.

    * the loop lays the segments over what was there, one after the other
      (`loadLoop_laid`), and no two of them share a byte (`loaded_byte`);
    * so the image is the one the file describes exactly if the bytes behind
      `p_filesz` were zero before and the argument block meets no segment in
      which it does not belong (`exec_builds_iff`). -/

namespace KosExecLayout

open FlatMemory GuardedRun KosKernel KosProcessManager Overlay KosExec

/-! ## Files -/

/-- Header `i` is loaded. -/
def Loads (mem : Mem) (i : Nat) : Prop :=
  i < (ePhnum mem).toNat ∧ (phdr mem i).pType = PT_LOAD

/-- The segment has byte `x` in memory. -/
def Covers (mem : Mem) (i x : Nat) : Prop :=
  (phdr mem i).pVaddr.toNat ≤ x ∧
    x < (phdr mem i).pVaddr.toNat + (phdr mem i).pMemsz.toNat

/-- The file has byte `x` of the segment. -/
def Fills (mem : Mem) (i x : Nat) : Prop :=
  (phdr mem i).pVaddr.toNat ≤ x ∧
    x < (phdr mem i).pVaddr.toNat + (phdr mem i).pFilesz.toNat

/-- An executable of `fileSize` bytes in `pm_buf`: its headers and the bytes of
    its segments are in the file, and no two segments share a byte. -/
structure WellFormed (mem : Mem) (fileSize : Int) : Prop where
  phentsize : ePhentsize mem = 32
  table : ((ePhoff mem).toNat + (ePhnum mem).toNat * 32 : Nat) ≤ fileSize
  file : ∀ i, Loads mem i →
    ((phdr mem i).pOffset.toNat + (phdr mem i).pFilesz.toNat : Nat) ≤ fileSize
  size : ∀ i, Loads mem i →
    (phdr mem i).pFilesz.toNat ≤ (phdr mem i).pMemsz.toNat
  range : ∀ i, Loads mem i →
    (phdr mem i).pVaddr.toNat + (phdr mem i).pMemsz.toNat < 4294967296
  apart : ∀ i j x, Loads mem i → Loads mem j → Covers mem i x →
    Covers mem j x → i = j

/-- Byte `k` of the segment of header `i` in the file. -/
def fileByte (mem : Mem) (i k : Nat) : Byte :=
  readBlock mem pmBuf ((phdr mem i).pOffset.toNat + k)

/-- The bytes `f` with the first `n` segments laid over them. -/
def laidOver (mem : Mem) (f : Nat → Byte) : Nat → Nat → Byte
  | 0 => f
  | n + 1 =>
      if (phdr mem n).pType = PT_LOAD then
        put (laidOver mem f n) (phdr mem n).pVaddr.toNat
          (phdr mem n).pFilesz.toNat (fileByte mem n)
      else laidOver mem f n

/-- The caller's segment with the file laid over it. -/
def afterLoad (mem : Mem) (base : Addr) : Nat → Byte :=
  laidOver mem (readBlock mem base) (ePhnum mem).toNat

/-- **THE IMAGE** that the file describes is in the segment at `base`: the bytes
    of the file, and zeros behind them. -/
def Built (mem : Mem) (base : Addr) (mem' : Mem) : Prop :=
  ∀ i, Loads mem i →
    (∀ k < (phdr mem i).pFilesz.toNat,
      readBlock mem' base ((phdr mem i).pVaddr.toNat + k) = fileByte mem i k) ∧
    ∀ k, (phdr mem i).pFilesz.toNat ≤ k → k < (phdr mem i).pMemsz.toNat →
      readBlock mem' base ((phdr mem i).pVaddr.toNat + k) = 0

/-- Byte `x` of the segment is in the argument block. -/
def InArgs (r : ExecRequest) (x : Nat) : Prop :=
  0xFFC00 ≤ x ∧ x < 0xFFC00 + r.bufLen.toNat

/-- The segment of the caller already has zeros behind the bytes of the file. -/
def ZeroBefore (mem : Mem) (base : Addr) (r : ExecRequest) : Prop :=
  ∀ i, Loads mem i → ∀ k, (phdr mem i).pFilesz.toNat ≤ k →
    k < (phdr mem i).pMemsz.toNat →
    ¬ InArgs r ((phdr mem i).pVaddr.toNat + k) →
      readBlock mem base ((phdr mem i).pVaddr.toNat + k) = 0

/-- Where a segment reaches into the argument block, the arguments are what the
    segment has there. -/
def ArgsAgree (mem : Mem) (r : ExecRequest) (block : Nat → Byte) : Prop :=
  ∀ i, Loads mem i → ∀ k < (phdr mem i).pMemsz.toNat,
    InArgs r ((phdr mem i).pVaddr.toNat + k) →
      block ((phdr mem i).pVaddr.toNat + k - 0xFFC00) =
        if k < (phdr mem i).pFilesz.toNat then fileByte mem i k else 0

/-- The caller's argument block with the file laid over it. -/
def argsRead (mem : Mem) (base : Addr) (r : ExecRequest) (k : Nat) : Byte :=
  afterLoad mem base (r.buf + BitVec.ofNat 32 k).toNat

/-- That block, once its pointers are moved, is what the segments have where
    they reach into it. -/
def ArgsFit (mem : Mem) (base : Addr) (r : ExecRequest) (junk : Nat → Byte) :
    Prop :=
  ∀ block argc, relocate (stackPointer - r.buf) 256 0
      (put junk 0 r.bufLen.toNat (argsRead mem base r)) = .ok (block, argc) →
    ArgsAgree mem r block

/-! ## After the loop -/

section Load

variable {T : Table} {p : Int} {base a v : Addr} {mem mem₁ mem' : Mem}
  {fileSize : Int} {h : Phdr} {i k x : Nat} {copies : List Copied}

theorem readBlock_add : readBlock mem (a + v) k = readBlock mem a (v.toNat + k) := by
  rw [readBlock, readBlock, BitVec.ofNat_add, BitVec.ofNat_toNat,
    BitVec.setWidth_eq, BitVec.add_assoc]

/-- A copy of a sound header lays the bytes of the file over the segment. -/
theorem readBlock_copied (hbase : SegmentPlace base)
    (hfit : h.pVaddr.toNat + h.pFilesz.toNat ≤ procSize)
    (hfile : h.pOffset.toNat + h.pFilesz.toNat ≤ 0x100000)
    (hx : x < 4294967296) :
    readBlock (copyLoop mem (base + h.pVaddr) (pmBuf + h.pOffset)
        h.pFilesz.toNat) base x =
      put (readBlock mem base) h.pVaddr.toNat h.pFilesz.toNat
        (fun k => readBlock mem pmBuf (h.pOffset.toNat + k)) x := by
  have hlt := h.pFilesz.isLt
  -- the file is read from PM's buffer, which no process's segment meets
  have hapart : ∀ k < h.pFilesz.toNat, ¬ InBlock (base + h.pVaddr)
      h.pFilesz.toNat (pmBuf + h.pOffset + BitVec.ofNat 32 k) := by
    intro k hk hin
    have hseg := inSegment_of_copy (Or.inr hfit) hin
    rw [show pmBuf + h.pOffset + BitVec.ofNat 32 k =
      pmBuf + BitVec.ofNat 32 (h.pOffset.toNat + k) by
        rw [BitVec.ofNat_add, BitVec.ofNat_toNat, BitVec.setWidth_eq,
          BitVec.add_assoc]] at hseg
    exact not_inSegment_pmBuf hbase (by omega) hseg
  rw [copyLoop_eq_copy (by omega) hapart]
  by_cases hin : h.pVaddr.toNat ≤ x ∧ x < h.pVaddr.toNat + h.pFilesz.toNat
  · rw [put_of_in hin]
    have hcopied : readBlock (copy mem (base + h.pVaddr) (pmBuf + h.pOffset)
        h.pFilesz.toNat) (base + h.pVaddr) (x - h.pVaddr.toNat) =
          readBlock mem (pmBuf + h.pOffset) (x - h.pVaddr.toNat) :=
      readBlock_copy (by omega) (by omega)
    rw [readBlock_add, readBlock_add,
      show h.pVaddr.toNat + (x - h.pVaddr.toNat) = x by omega] at hcopied
    exact hcopied
  · rw [put_of_out (by omega)]
    refine copy_out fun hmeet => hin ?_
    -- outside the copy: the distance to its start wraps at 2^32
    have hdist : (base + BitVec.ofNat 32 x - (base + h.pVaddr)).toNat =
        (x + (4294967296 - h.pVaddr.toNat)) % 4294967296 := by
      rw [show base + BitVec.ofNat 32 x - (base + h.pVaddr) =
        BitVec.ofNat 32 x - h.pVaddr by bv_omega, BitVec.toNat_sub,
        BitVec.toNat_ofNat]
      omega
    rw [InBlock, hdist] at hmeet
    rw [procSize] at hfit
    have hvaddr := h.pVaddr.isLt
    omega

/-- A byte is the file's where a segment has it, and the old one elsewhere. -/
theorem laidOver_cases (mem : Mem) (f : Nat → Byte) (x : Nat) : ∀ n,
    (∃ j < n, (phdr mem j).pType = PT_LOAD ∧ Fills mem j x ∧
      laidOver mem f n x = fileByte mem j (x - (phdr mem j).pVaddr.toNat)) ∨
    ((∀ j < n, (phdr mem j).pType = PT_LOAD → ¬ Fills mem j x) ∧
      laidOver mem f n x = f x) := by
  intro n
  induction n with
  | zero => exact Or.inr ⟨fun j hj => absurd hj (Nat.not_lt_zero j), rfl⟩
  | succ n ih =>
      rw [laidOver]
      by_cases htype : (phdr mem n).pType = PT_LOAD
      · rw [if_pos htype]
        by_cases hfills : Fills mem n x
        · rw [put_of_in hfills]
          exact Or.inl ⟨n, Nat.lt_succ_self n, htype, hfills, rfl⟩
        · have hout := hfills
          rw [Fills] at hout
          rw [put_of_out (by omega)]
          rcases ih with ⟨j, hj, hload⟩ | ⟨hnone, hold⟩
          · exact Or.inl ⟨j, Nat.lt_succ_of_lt hj, hload⟩
          · refine Or.inr ⟨fun j hj hload => ?_, hold⟩
            rcases Nat.lt_succ_iff_lt_or_eq.mp hj with hlt | rfl
            · exact hnone j hlt hload
            · exact hfills
      · rw [if_neg htype]
        rcases ih with ⟨j, hj, hload⟩ | ⟨hnone, hold⟩
        · exact Or.inl ⟨j, Nat.lt_succ_of_lt hj, hload⟩
        · refine Or.inr ⟨fun j hj hload => ?_, hold⟩
          rcases Nat.lt_succ_iff_lt_or_eq.mp hj with hlt | rfl
          · exact hnone j hlt hload
          · exact absurd hload htype

/-- **THE LOOP** lays the segments over the caller's, one after the other: the
    induction is on the rounds that are left, and goes through the states in
    which the segments before header `i` are laid. -/
theorem loadLoop_laid (hsize : fileSize < PM_BUF_SIZE)
    (hbase : SegmentPlace (baseOf T p)) (hap : HeadersApart (baseOf T p) mem)
    (hsound : ∀ j, Loads mem j → (phdr mem j).Sound fileSize) :
    ∀ {fuel i : Nat} {mem₁ : Mem} {copies : List Copied},
      Outside (baseOf T p) mem mem₁ → i ≤ (ePhnum mem).toNat →
      (∀ x < 4294967296, readBlock mem₁ (baseOf T p) x =
        laidOver mem (readBlock mem (baseOf T p)) i x) →
      65536 ≤ fuel + i → loadLoop T p fuel i mem₁ = .ok (mem', copies) →
      ∀ x < 4294967296, readBlock mem' (baseOf T p) x =
        afterLoad mem (baseOf T p) x := by
  have hmax := (ePhnum mem).isLt
  intro fuel
  induction fuel with
  | zero =>
      intro i mem₁ copies _ hi _ hfuel _
      omega
  | succ fuel ih =>
      intro i mem₁ copies ho hle hlaid hfuel hrun
      obtain ⟨hnum, hhdr⟩ := headers_same hap ho
      rcases loadLoop_eq_ok.mp hrun with ⟨hend, rfl, -⟩ | ⟨hi, htype, hnext⟩ |
        ⟨hi, htype, -, -, -, rest, -, hnext⟩
      · rw [hnum] at hend
        obtain rfl : i = (ePhnum mem).toNat := Nat.le_antisymm hle hend
        exact hlaid
      · rw [hnum] at hi
        rw [hhdr i hi] at htype
        refine ih ho hi (fun x hx => ?_) (by omega) hnext
        rw [laidOver, if_neg htype]
        exact hlaid x hx
      · rw [hnum] at hi
        rw [hhdr i hi] at htype hnext
        rcases hsound i ⟨hi, htype⟩ with hzero | ⟨hfit, hfile⟩
        · -- no bytes are copied
          have hnone : (phdr mem i).pFilesz.toNat = 0 := by
            rw [hzero]
            rfl
          rw [hnone] at hnext
          refine ih ho hi (fun x hx => ?_) (by omega) hnext
          rw [laidOver, if_pos htype, hnone, put_zero]
          exact hlaid x hx
        · rw [PM_BUF_SIZE] at hsize
          refine ih (outside_copy ho (Or.inr hfit)) hi (fun x hx => ?_)
            (by omega) hnext
          rw [readBlock_copied hbase hfit (by omega) hx, laidOver, if_pos htype]
          by_cases hin : (phdr mem i).pVaddr.toNat ≤ x ∧
              x < (phdr mem i).pVaddr.toNat + (phdr mem i).pFilesz.toNat
          · rw [put_of_in hin, put_of_in hin]
            -- the file is outside the segment
            exact ho _ (not_inSegment_pmBuf hbase (by omega))
          · rw [put_of_out (by omega), put_of_out (by omega)]
            exact hlaid x hx

/-- The headers of a well-formed file lie apart from the segment. -/
theorem WellFormed.headersApart (wf : WellFormed mem fileSize)
    (hsize : fileSize < PM_BUF_SIZE) (hbase : SegmentPlace base) :
    HeadersApart base mem := by
  have htable := wf.table
  have h32 : (ePhentsize mem).toNat = 32 := by rw [wf.phentsize]; rfl
  rw [PM_BUF_SIZE] at hsize
  refine headersApart_of_table hbase (by omega) ?_
  rw [h32]
  omega

/-- The check of the loop on the segments that are still to be loaded.  Without
    a wrap around it is one on the sum. -/
theorem loadLoop_fits (wf : WellFormed mem fileSize)
    (hsize : fileSize < PM_BUF_SIZE) (hbase : SegmentPlace (baseOf T p)) :
    ∀ {fuel i : Nat} {mem₁ : Mem} {copies : List Copied},
      Outside (baseOf T p) mem mem₁ → 65536 ≤ fuel + i →
      loadLoop T p fuel i mem₁ = .ok (mem', copies) →
      ∀ j, i ≤ j → Loads mem j →
        (phdr mem j).pVaddr.toNat + (phdr mem j).pMemsz.toNat ≤ procSize := by
  have hap := wf.headersApart hsize hbase
  have hmax := (ePhnum mem).isLt
  intro fuel
  induction fuel with
  | zero =>
      rintro i mem₁ copies _ hfuel hrun j hij ⟨hj, -⟩
      omega
  | succ fuel ih =>
      rintro i mem₁ copies ho hfuel hrun j hij hj
      obtain ⟨hnum, hhdr⟩ := headers_same hap ho
      rcases loadLoop_eq_ok.mp hrun with ⟨hend, rfl, -⟩ | ⟨hi, htype, hnext⟩ |
        ⟨hi, htype, hguard, -, -, rest, -, hnext⟩
      · rw [hnum] at hend
        have hlt := hj.1
        omega
      · rw [hnum] at hi
        rw [hhdr i hi] at htype
        rcases Nat.eq_or_lt_of_le hij with rfl | hlt
        · exact absurd hj.2 htype
        · exact ih ho (by omega) hnext j hlt hj
      · rw [hnum] at hi
        rw [hhdr i hi] at htype hguard hnext
        have hrange := wf.range i ⟨hi, htype⟩
        have hfilesz := wf.size i ⟨hi, htype⟩
        rw [BitVec.toNat_add, Nat.mod_eq_of_lt hrange] at hguard
        rcases Nat.eq_or_lt_of_le hij with rfl | hlt
        · exact Nat.le_of_lt hguard
        · exact ih (outside_copy ho (Or.inr (by omega))) (by omega) hnext j hlt hj

/-- The headers of a well-formed file that is loaded are sound. -/
theorem WellFormed.sound (wf : WellFormed mem fileSize)
    (hsize : fileSize < PM_BUF_SIZE) (hbase : SegmentPlace (baseOf T p))
    (hrun : loadImage T p mem = .ok (mem', copies)) :
    ∀ j, Loads mem j → (phdr mem j).Sound fileSize := by
  intro j hj
  have hfit := loadLoop_fits wf hsize hbase (fun _ _ => rfl) (by omega) hrun j
    (Nat.zero_le j) hj
  have hfilesz := wf.size j hj
  exact Or.inr ⟨by omega, wf.file j hj⟩

/-- **THE SEGMENT** after the loop. -/
theorem loadImage_laid (hsize : fileSize < PM_BUF_SIZE)
    (hbase : SegmentPlace (baseOf T p)) (hap : HeadersApart (baseOf T p) mem)
    (hsound : ∀ j, Loads mem j → (phdr mem j).Sound fileSize)
    (hrun : loadImage T p mem = .ok (mem', copies)) (hx : x < 4294967296) :
    readBlock mem' (baseOf T p) x = afterLoad mem (baseOf T p) x :=
  loadLoop_laid hsize hbase hap hsound (fun _ _ => rfl) (Nat.zero_le _)
    (fun _ _ => rfl) (by omega) hrun x hx

/-- **A BYTE OF A SEGMENT** after the loop.  No other segment has it. -/
theorem loaded_byte (wf : WellFormed mem fileSize)
    (hsize : fileSize < PM_BUF_SIZE) (hbase : SegmentPlace (baseOf T p))
    (hrun : loadImage T p mem = .ok (mem', copies)) (hi : Loads mem i)
    (hk : k < (phdr mem i).pMemsz.toNat) :
    (phdr mem i).pVaddr.toNat + k < procSize ∧
      readBlock mem' (baseOf T p) ((phdr mem i).pVaddr.toNat + k) =
        if k < (phdr mem i).pFilesz.toNat then fileByte mem i k
        else readBlock mem (baseOf T p) ((phdr mem i).pVaddr.toNat + k) := by
  have hrange := wf.range i hi
  have hfit := loadLoop_fits wf hsize hbase (fun _ _ => rfl) (by omega) hrun i
    (Nat.zero_le i) hi
  have hcovers : Covers mem i ((phdr mem i).pVaddr.toNat + k) :=
    ⟨by omega, by omega⟩
  refine ⟨by omega, ?_⟩
  rw [loadImage_laid hsize hbase (wf.headersApart hsize hbase)
    (wf.sound hsize hbase hrun) hrun (by omega), afterLoad]
  rcases laidOver_cases mem (readBlock mem (baseOf T p))
    ((phdr mem i).pVaddr.toNat + k) (ePhnum mem).toNat with
    ⟨j, hj, htype, hfills, hbyte⟩ | ⟨hnone, hbyte⟩
  · have hjsize := wf.size j ⟨hj, htype⟩
    obtain rfl := wf.apart i j _ hi ⟨hj, htype⟩ hcovers
      ⟨hfills.1, Nat.lt_of_lt_of_le hfills.2 (by omega)⟩
    rw [if_pos (by have := hfills.2; omega), hbyte, Nat.add_sub_cancel_left]
  · rw [if_neg fun hlt => hnone i hi.1 hi.2 ⟨by omega, by omega⟩, hbyte]

end Load

/-! ## The image that is built -/

section Building

variable {s : Pm} {r : ExecRequest} {junk : Nat → Byte} {name : List Byte}
  {mem mem₁ : Mem} {image : Image} {fileSize : Int} {i k x : Nat} {base : Addr}
  {block : Nat → Byte} {T : Table} {p : Int} {copies : List Copied}

/-- The argument block is laid over the segments. -/
theorem readBlock_stack (mem : Mem) (block : Nat → Byte) (base : Addr)
    (hlen : r.bufLen ≤ 0x400)
    (hx : x < procSize) :
    (InArgs r x → readBlock (store mem (base + stackPointer) r.bufLen.toNat block)
      base x = block (x - 0xFFC00)) ∧
    (¬ InArgs r x → readBlock (store mem (base + stackPointer) r.bufLen.toNat
      block) base x = readBlock mem base x) := by
  have hnat : BitVec.toNat stackPointer = 0xFFC00 := rfl
  rw [procSize] at hx
  constructor
  · rintro ⟨hlo, hhi⟩
    have hread : readBlock (store mem (base + stackPointer) r.bufLen.toNat block)
        (base + stackPointer) (x - 0xFFC00) = block (x - 0xFFC00) :=
      readBlock_store (by omega) (by omega)
    rw [readBlock_add, hnat, show 0xFFC00 + (x - 0xFFC00) = x by omega] at hread
    exact hread
  · intro hout
    refine store_out fun hin => hout ?_
    have hdist : (base + BitVec.ofNat 32 x - (base + stackPointer)).toNat =
        (x + (4294967296 - 0xFFC00)) % 4294967296 := by
      rw [show base + BitVec.ofNat 32 x - (base + stackPointer) =
        BitVec.ofNat 32 x - stackPointer by bv_omega, BitVec.toNat_sub,
        BitVec.toNat_ofNat, hnat]
      omega
    rw [InBlock, hdist] at hin
    rw [InArgs]
    omega

/-- The bytes of the image are those of the loop, with the argument block over
    them. -/
theorem built_iff (h : Reach Boot Step free s) (hp : InTable r.source)
    (wf : WellFormed mem fileSize) (hsize : fileSize < PM_BUF_SIZE)
    (hrun : execFile s.table r junk name mem = .ok image) :
    Built mem (baseOf s.table r.source) image.mem ↔
      ZeroBefore mem (baseOf s.table r.source) r ∧
        ArgsAgree mem r image.stackcopy := by
  obtain ⟨mem₁, copies, mem₂, block, argc, hload, hstack, rfl⟩ :=
    execFile_eq_ok.mp hrun
  obtain ⟨hnative, -, hlen, hmem, -⟩ := setupStack_eq_ok hstack
  have hbase := segmentPlace_reach h hp hnative
  have hbyte := fun i k (hi : Loads mem i) (hk : k < (phdr mem i).pMemsz.toNat) =>
    loaded_byte wf hsize hbase hload hi hk
  dsimp only
  rw [hmem]
  -- a byte of a segment is under the arguments or not: there the block shows,
  -- elsewhere the file or what was in memory before
  constructor
  · intro hbuilt
    constructor
    · intro i hi k hlo hhi hout
      obtain ⟨hx, hbyte⟩ := hbyte i k hi hhi
      have hzero := (hbuilt i hi).2 k hlo hhi
      rw [(readBlock_stack _ _ _ hlen hx).2 hout, hbyte, if_neg (by omega)] at hzero
      exact hzero
    · intro i hi k hk hin
      obtain ⟨hx, -⟩ := hbyte i k hi hk
      have hblock := (readBlock_stack mem₁ block (baseOf s.table r.source)
        hlen hx).1 hin
      rw [← hblock]
      split
      · rename_i hfile
        exact (hbuilt i hi).1 k hfile
      · rename_i hfile
        exact (hbuilt i hi).2 k (by omega) hk
  · rintro ⟨hzero, hargs⟩ i hi
    have hfilesz := wf.size i hi
    refine ⟨fun k hk => ?_, fun k hlo hhi => ?_⟩
    · obtain ⟨hx, hbyte⟩ := hbyte i k hi (by omega)
      by_cases hin : InArgs r ((phdr mem i).pVaddr.toNat + k)
      · rw [(readBlock_stack _ _ _ hlen hx).1 hin, hargs i hi k (by omega) hin,
          if_pos hk]
      · rw [(readBlock_stack _ _ _ hlen hx).2 hin, hbyte, if_pos hk]
    · obtain ⟨hx, hbyte⟩ := hbyte i k hi hhi
      by_cases hin : InArgs r ((phdr mem i).pVaddr.toNat + k)
      · rw [(readBlock_stack _ _ _ hlen hx).1 hin, hargs i hi k hhi hin,
          if_neg (by omega)]
      · rw [(readBlock_stack _ _ _ hlen hx).2 hin, hbyte, if_neg (by omega)]
        exact hzero i hi k hlo hhi hin

/-- The block that is read after the loop. -/
theorem argsRead_loaded (hsize : fileSize < PM_BUF_SIZE)
    (hbase : SegmentPlace (baseOf T p)) (hap : HeadersApart (baseOf T p) mem)
    (hsound : ∀ j, Loads mem j → (phdr mem j).Sound fileSize)
    (hload : loadImage T p mem = .ok (mem₁, copies)) (r : ExecRequest)
    (k : Nat) :
    readBlock mem₁ (baseOf T p + r.buf) k = argsRead mem (baseOf T p) r k := by
  rw [argsRead, ← loadImage_laid hsize hbase hap hsound hload (BitVec.isLt _),
    readBlock, readBlock, BitVec.ofNat_toNat, BitVec.setWidth_eq,
    BitVec.add_assoc]

/-- So what `do_exec` puts into the last KB can be told before the call. -/
theorem argsFit_iff (h : Reach Boot Step free s) (hp : InTable r.source)
    (wf : WellFormed mem fileSize) (hsize : fileSize < PM_BUF_SIZE)
    (hrun : execFile s.table r junk name mem = .ok image) :
    ArgsFit mem (baseOf s.table r.source) r junk ↔
      ArgsAgree mem r image.stackcopy := by
  obtain ⟨mem₁, copies, mem₂, block, argc, hload, hstack, rfl⟩ :=
    execFile_eq_ok.mp hrun
  obtain ⟨hnative, hpos, hlen, -, hmove⟩ := setupStack_eq_ok hstack
  have hbase := segmentPlace_reach h hp hnative
  dsimp only
  by_cases hzero : r.bufLen = 0
  · -- nothing is in an empty block
    have hnone : ∀ b, ArgsAgree mem r b := fun b i _ k _ hin => by
      rw [InArgs, hzero] at hin
      exact absurd hin.2 (Nat.not_lt_of_le hin.1)
    exact iff_of_true (fun b _ _ => hnone b) (hnone block)
  · have hmove := hmove hzero
    rw [put_congr fun k _ => argsRead_loaded hsize hbase
      (wf.headersApart hsize hbase) (wf.sound hsize hbase hload) hload r k]
      at hmove
    constructor
    · exact fun hfit => hfit block argc hmove
    · intro hagree block' argc' hmove'
      obtain ⟨rfl, -⟩ := Prod.mk.inj
        (Except.ok.inj (hmove.symm.trans hmove'))
      exact hagree

/-- **EXEC BUILDS** the image that the file describes exactly if the bytes behind
    the file's were zero before, and the argument block has what a segment has
    there that it reaches into.  If it reaches into none, the zeros decide. -/
theorem exec_builds_iff (h : Reach Boot Step free s) (hp : InTable r.source)
    (wf : WellFormed mem fileSize) (hsize : fileSize < PM_BUF_SIZE)
    (hrun : execFile s.table r junk name mem = .ok image) :
    (Built mem (baseOf s.table r.source) image.mem ↔
      ZeroBefore mem (baseOf s.table r.source) r ∧
        ArgsFit mem (baseOf s.table r.source) r junk) ∧
    ((∀ i x, Loads mem i → Covers mem i x → ¬ InArgs r x) →
      (Built mem (baseOf s.table r.source) image.mem ↔
        ZeroBefore mem (baseOf s.table r.source) r)) := by
  have hiff := (built_iff h hp wf hsize hrun).trans
    (and_congr_right fun _ => (argsFit_iff h hp wf hsize hrun).symm)
  refine ⟨hiff, fun hclear => hiff.trans
    (and_iff_left fun block argc _ i hi k hk hin => ?_)⟩
  exact absurd hin (hclear i _ hi ⟨by omega, by omega⟩)

/-- So `do_exec` builds the image of the file that FS has read for it. -/
theorem doExec_builds {fs : Files} (h : Reach Boot Step free s)
    (hp : InTable r.source) (wf : ∀ path size, fs.stat path = some size →
      WellFormed (store mem pmBuf size.toNat (fs.read path)) size)
    (hrun : doExec fs s.table r junk mem = .ok (some image)) :
    ∃ path size, fs.stat path = some size ∧
      (Built (store mem pmBuf size.toNat (fs.read path))
          (baseOf s.table r.source) image.mem ↔
        ZeroBefore (store mem pmBuf size.toNat (fs.read path))
            (baseOf s.table r.source) r ∧
          ArgsFit (store mem pmBuf size.toNat (fs.read path))
            (baseOf s.table r.source) r junk) := by
  obtain ⟨path, size, hstat, hsize, hfile⟩ := doExec_eq_some hrun
  have wf := wf path size hstat
  exact ⟨path, size, hstat, (built_iff h hp wf hsize hfile).trans
    (and_congr_right fun _ => (argsFit_iff h hp wf hsize hfile).symm)⟩

end Building

/-! ## A program with zero-initialised data -/

section Small

variable {mem : Mem} {n : Nat} {h : Phdr} {r : ExecRequest} {p : Int}

theorem loads_elf {i : Nat} (hn : 84 ≤ n) (hmax : n ≤ 0x100000)
    (hi : Loads (elfMem mem n h) i) : i = 0 ∧ phdr (elfMem mem n h) i = h := by
  obtain ⟨hnum, -, -, hhdr⟩ := headers_elfMem mem h hn
    (by omega)
  have hone : BitVec.toNat (1 : BitVec 16) = 1 := rfl
  have hlt := hi.1
  rw [hnum, hone] at hlt
  obtain rfl : i = 0 := by omega
  exact ⟨rfl, hhdr⟩

/-- The file is not where the first slot is. -/
theorem readBlock_elf {x : Nat} (hmax : n ≤ 0x100000) (hx : x < 0x100000) :
    readBlock (elfMem mem n h) 0xA00000 x = mem (0xA00000 + BitVec.ofNat 32 x) := by
  refine store_out fun hin => ?_
  rw [InBlock, pmBuf, BitVec.toNat_sub, BitVec.toNat_add, BitVec.toNat_ofNat,
    show BitVec.toNat (0x700000 : Addr) = 0x700000 from rfl,
    show BitVec.toNat (0xA00000 : Addr) = 0xA00000 from rfl] at hin
  omega

/-- A file with one header is well formed if the sums of its fields are. -/
theorem wellFormed_elf (hn : 84 ≤ n) (hmax : n ≤ 0x100000)
    (hfile : h.pOffset.toNat + h.pFilesz.toNat ≤ n)
    (hsize : h.pFilesz.toNat ≤ h.pMemsz.toNat)
    (hrange : h.pVaddr.toNat + h.pMemsz.toNat < 4294967296) :
    WellFormed (elfMem mem n h) n := by
  obtain ⟨hnum, hphent, hoff, -⟩ := headers_elfMem mem h hn
    (by omega)
  refine ⟨hphent, ?_, fun i hi => ?_, fun i hi => ?_, fun i hi => ?_,
    fun i j x hi hj _ _ => ?_⟩
  · rw [hoff, hnum, show BitVec.toNat (52 : BitVec 32) = 52 from rfl,
      show BitVec.toNat (1 : BitVec 16) = 1 from rfl]
    omega
  · rw [(loads_elf hn hmax hi).2]
    omega
  · rw [(loads_elf hn hmax hi).2]
    exact hsize
  · rw [(loads_elf hn hmax hi).2]
    exact hrange
  · rw [(loads_elf hn hmax hi).1, (loads_elf hn hmax hj).1]

end Small

/-- Process 9 asks for a program without arguments. -/
def plainRequest : ExecRequest := ⟨9, 0, 0, 0, 0⟩

/-- 84 bytes of the file, and zeros up to 8 KB. -/
def bssHeader : Phdr := ⟨PT_LOAD, 0, 0x1000, 84, 0x2000⟩

theorem execFile_bss (mem : Mem) (junk : Nat → Byte) :
    WellFormed (elfMem mem 84 bssHeader) 84 ∧
      ∃ image, execFile forkedPm.table plainRequest junk []
        (elfMem mem 84 bssHeader) = .ok image := by
  obtain ⟨-, hload⟩ := loadImage_elf mem bssHeader (n := 84)
    (T := forkedPm.table) (p := 9) (by decide) (by decide) slotPlace rfl
    (Or.inr (by decide)) (by decide) notNative baseOf_forked.2
  exact ⟨wellFormed_elf (by decide) (by decide) (by decide) (by decide)
    (by decide), _, execFile_eq_ok.mpr ⟨_, _, _, _, _, hload,
      setupStack_none (r := plainRequest) rfl notNative, rfl⟩⟩

theorem zeroBefore_bss {mem : Mem} : ZeroBefore (elfMem mem 84 bssHeader)
      0xA00000 plainRequest ↔
    ∀ x, 0x1054 ≤ x → x < 0x3000 → mem (0xA00000 + BitVec.ofNat 32 x) = 0 := by
  obtain ⟨hnum, -, -, hhdr⟩ := headers_elfMem mem bssHeader (n := 84)
    (by decide) (by decide)
  have hvaddr : bssHeader.pVaddr.toNat = 0x1000 := rfl
  have hfilesz : bssHeader.pFilesz.toNat = 84 := rfl
  have hmemsz : bssHeader.pMemsz.toNat = 0x2000 := rfl
  have hread : ∀ x < 0x3000, readBlock (elfMem mem 84 bssHeader) 0xA00000 x =
      mem (0xA00000 + BitVec.ofNat 32 x) :=
    fun x hx => readBlock_elf (by decide) (by omega)
  constructor
  · intro hzero x hlo hhi
    have hload : Loads (elfMem mem 84 bssHeader) 0 := by
      refine ⟨?_, by rw [hhdr]; rfl⟩
      rw [hnum]
      decide
    have hbyte := hzero 0 hload (x - 0x1000)
    rw [hhdr, hvaddr, hfilesz, hmemsz,
      show 0x1000 + (x - 0x1000) = x by omega] at hbyte
    rw [← hread x hhi]
    exact hbyte (by omega) (by omega) fun hin => absurd hin.1 (by omega)
  · intro hzero i hi k hlo hhi _
    rw [(loads_elf (by decide) (by decide) hi).2, hvaddr]
    rw [(loads_elf (by decide) (by decide) hi).2, hfilesz] at hlo
    rw [(loads_elf (by decide) (by decide) hi).2, hmemsz] at hhi
    rw [hread _ (by omega)]
    exact hzero _ (by omega) (by omega)

/-- A child of a parent that had zeros there gets the image. -/
theorem exec_builds_iff_zeros : ∃ image,
    execFile forkedPm.table plainRequest (fun _ => 0) []
      (elfMem (fun _ => 0) 84 bssHeader) = .ok image ∧
    Built (elfMem (fun _ => 0) 84 bssHeader) (baseOf forkedPm.table 9)
      image.mem := by
  obtain ⟨wf, image, hrun⟩ := execFile_bss (fun _ => 0) fun _ => 0
  refine ⟨image, hrun, ((exec_builds_iff forkedPm_reach (by decide) wf (by decide)
    hrun).2 ?_).mpr ?_⟩
  · rintro i x hi hcovers ⟨hlo, -⟩
    have hlast := hcovers.2
    rw [(loads_elf (by decide) (by decide) hi).2] at hlast
    exact absurd (Nat.lt_of_le_of_lt hlo hlast) (by decide)
  · show ZeroBefore _ (baseOf forkedPm.table 9) _
    rw [baseOf_forked.1]
    exact zeroBefore_bss.mpr fun _ _ _ => rfl

/-- Elsewhere a byte of the parent's shows where the program has a zero. -/
theorem leftover_stays : ∃ (mem : Mem) (image : Image),
    WellFormed (elfMem mem 84 bssHeader) 84 ∧
    execFile forkedPm.table plainRequest (fun _ => 0) []
      (elfMem mem 84 bssHeader) = .ok image ∧
    ¬ Built (elfMem mem 84 bssHeader) (baseOf forkedPm.table 9) image.mem := by
  obtain ⟨wf, image, hrun⟩ := execFile_bss
    (fun x => if x = 0xA02000 then 1 else 0) fun _ => 0
  refine ⟨_, image, wf, hrun, fun hbuilt => ?_⟩
  have hzero := ((built_iff forkedPm_reach (by decide) wf (by decide) hrun).mp
    hbuilt).1
  change ZeroBefore _ (baseOf forkedPm.table 9) _ at hzero
  rw [baseOf_forked.1] at hzero
  exact absurd (zeroBefore_bss.mp hzero 0x2000 (by decide) (by decide)) (by decide)

end KosExecLayout
