import Kos.BootSearchProofs

/-! # The inode reader at boot

    `ReadINode` of `boot/hdloader.asm`, against `get_file_inode` of the file
    system on the partition the system is on.

    * `mul bl` multiplies the low byte of the number alone, so the test behind
      it sees the place of the inode `(n - 1) % 256 + 1` (`place_eq`);
    * what is past the two sectors of the buffer is refused
      (`readINode_refused`), the rest is read from the drive
      (`readINode_found`);
    * the two readers agree under a condition on the number, or on the two
      inodes it confuses (`inode_agrees_iff`). -/

namespace KosBootInode

open FlatMemory (Byte)
open Overlay
open KosFs
open KosMkfs
open KosInodeArray
open KosBootSearch (SECT_BUF_SIZE)

/-! ## `hdloader.asm` -/

/-- The first sector of the partition the system is on. -/
def ROOT_BASE : BitVec 32 := 0x4EFF

/-- Where the kernel is read to. -/
def KERNEL_OFFSET : Nat := 0

/-- The segment `es` behind `ReadHDSector`: `TRANSFER_SECT_NR` sectors of the
    drive at `KERNEL_OFFSET`. -/
def readHDSector (drive es : Nat → Byte) (lba : BitVec 32) : Nat → Byte :=
  put es KERNEL_OFFSET SECT_BUF_SIZE (drop drive (512 * lba.toNat))

/-- `mul bl`: the product of two bytes in `ax`, the upper half of `eax` as it
    was. -/
def mulBl (eax : BitVec 32) (bl : BitVec 8) : BitVec 32 :=
  eax.extractLsb' 16 16 ++ (eax.setWidth 8).setWidth 16 * bl.setWidth 16

/-- `add ax, w` -/
def addAx (eax : BitVec 32) (w : BitVec 16) : BitVec 32 :=
  eax.extractLsb' 16 16 ++ (eax.setWidth 16 + w)

/-- `eax` and `ecx` behind `ReadINode`, or none at `kernel_load_error`. -/
def readINode (sb : SuperBlock) (drive es : Nat → Byte) (eax : BitVec 32) :
    Option (BitVec 32 × BitVec 32) :=
  let eax := eax - 1
  let eax := mulBl eax (sb.inodeSize.setWidth 8)
  let edx := BitVec.ofNat 32 SECT_BUF_SIZE - sb.inodeSize
  -- `jg kernel_load_error`, on signed words
  if edx.slt eax then none
  else
    let lba := sb.nrInodeMapSects + sb.nrSectMapSects + ROOT_BASE + 2
    let es := readHDSector drive es lba
    let ebx := BitVec.ofNat 32 KERNEL_OFFSET
    let edx := sb.inodeIsizeOff + ebx + eax
    let ecx := word es edx.toNat
    let eax := addAx eax (sb.inodeStartOff.setWidth 16)
    let bx := ebx.setWidth 16 + eax.setWidth 16
    some (word es bx.toNat + ROOT_BASE, ecx)

/-- The partition on the drive. -/
def rootDisk (drive : Nat → Byte) : Nat → Byte :=
  drop drive (512 * ROOT_BASE.toNat)

/-! ## The registers -/

section Registers

variable {sb : SuperBlock} {drive es : Nat → Byte} {sectCnt : BitVec 32}
  {eax : BitVec 32} {n m : Nat}

/-- The number the product is made of. -/
def confused (n : Nat) : Nat := (n - 1) % 256 + 1

/-- A register whose upper half is zero, with another lower half. -/
theorem lower_toNat (h : eax.toNat < 65536) (ax : BitVec 16) :
    (eax.extractLsb' 16 16 ++ ax).toNat = ax.toNat := by
  have hupper : (eax.extractLsb' 16 16).toNat = 0 := by
    rw [BitVec.extractLsb'_toNat, Nat.shiftRight_eq_div_pow,
      Nat.div_eq_of_lt h]
  rw [BitVec.toNat_append, hupper, Nat.zero_shiftLeft, Nat.zero_or]

theorem mulBl_toNat (h : eax.toNat < 65536) :
    (mulBl eax 32).toNat = 32 * (eax.toNat % 256) := by
  have h32 : (BitVec.setWidth 16 (32 : BitVec 8)).toNat = 32 := rfl
  rw [mulBl, lower_toNat h, BitVec.toNat_mul, h32, BitVec.toNat_setWidth,
    BitVec.toNat_setWidth]
  omega

theorem addAx_toNat {w : BitVec 16} (h : eax.toNat + w.toNat < 65536) :
    (addAx eax w).toNat = eax.toNat + w.toNat := by
  rw [addAx, lower_toNat (by omega), BitVec.toNat_add, BitVec.toNat_setWidth]
  omega

/-- The size of an inode fits in a byte. -/
theorem setWidth_size : (32 : BitVec 32).setWidth 8 = 32 := by decide

/-- The place `ReadINode` looks at. -/
theorem place_eq (h1 : 1 ≤ n) (h2 : n < 4096) :
    (mulBl (BitVec.ofNat 32 n - 1) 32).toNat = 32 * (confused n - 1) := by
  have hdec : (BitVec.ofNat 32 n - 1).toNat = n - 1 := by
    rw [BitVec.toNat_sub, BitVec.toNat_ofNat,
      show BitVec.toNat (1 : BitVec 32) = 1 from rfl]
    omega
  rw [mulBl_toNat (by omega), hdec, confused, Nat.add_sub_cancel]

/-- What `ReadINode` compares the place with. -/
theorem pastBuffer_iff (h : eax.toNat ≤ 8160) :
    (BitVec.ofNat 32 SECT_BUF_SIZE - 32).slt eax = true ↔ 992 < eax.toNat := by
  have hedx : BitVec.ofNat 32 SECT_BUF_SIZE - 32 = (992 : BitVec 32) := by
    decide
  have h992 : BitVec.toNat (992 : BitVec 32) = 992 := by decide
  rw [hedx, BitVec.slt, decide_eq_true_iff,
    BitVec.toInt_eq_toNat_of_lt (by omega),
    BitVec.toInt_eq_toNat_of_lt (by omega), h992]
  omega

/-- **PAST THE BUFFER** nothing is read. -/
theorem readINode_refused (h1 : 1 ≤ n) (h2 : n < 4096) (h : 32 < confused n) :
    readINode (superBlock sectCnt ROOT_DEV_NR) drive es (BitVec.ofNat 32 n) =
      none := by
  have hplace := place_eq h1 h2
  have hsmall : confused n ≤ 256 := by
    rw [confused]
    omega
  have h32 : (superBlock sectCnt ROOT_DEV_NR).inodeSize = 32 := rfl
  simp only [readINode, h32, setWidth_size]
  rw [if_pos ((pastBuffer_iff (by omega)).mpr (by omega))]

/-- A word of the buffer is a word of the inode array. -/
theorem buffer_word {o : Nat} (hm : 1 ≤ m ∧ m ≤ 32) (ho : o ≤ 12) :
    word (readHDSector drive es ((superBlock sectCnt ROOT_DEV_NR).nrInodeMapSects
        + (superBlock sectCnt ROOT_DEV_NR).nrSectMapSects + ROOT_BASE + 2))
        (32 * (m - 1) + o) =
      word (rootDisk drive)
        (entryByte (superBlock sectCnt ROOT_DEV_NR) m + o) := by
  have hmade := superBlock_made sectCnt ROOT_DEV_NR
  have hsmap := hmade.smap
  have hentry := entryByte_eq hmade hm.1 (by omega)
  have hlba : (1 + (superBlock sectCnt ROOT_DEV_NR).nrSectMapSects + ROOT_BASE
      + 2).toNat =
        3 + (superBlock sectCnt ROOT_DEV_NR).nrSectMapSects.toNat
          + ROOT_BASE.toNat := by
    rw [BitVec.toNat_add, BitVec.toNat_add, BitVec.toNat_add,
      show BitVec.toNat (1 : BitVec 32) = 1 from rfl,
      show BitVec.toNat (2 : BitVec 32) = 2 from rfl,
      show BitVec.toNat ROOT_BASE = 20223 from rfl]
    omega
  have hsize : SECT_BUF_SIZE = 1024 := rfl
  have hoff : KERNEL_OFFSET = 0 := rfl
  rw [hmade.imap]
  refine word_congr fun k hk => ?_
  rw [readHDSector, put_of_in (by omega), hlba, hentry, arrayByte, rootDisk,
    drop, drop]
  exact congrArg drive (by omega)

/-- **IN THE BUFFER** the inode is read that the product stands for. -/
theorem readINode_found (h1 : 1 ≤ n) (h2 : n < 4096) (h : confused n ≤ 32) :
    readINode (superBlock sectCnt ROOT_DEV_NR) drive es (BitVec.ofNat 32 n) =
      let p := diskInode (rootDisk drive) (superBlock sectCnt ROOT_DEV_NR)
        ROOT_DEV_NR (confused n)
      some (ROOT_BASE + p.sectStart, p.fileSize) := by
  have hm : 1 ≤ confused n ∧ confused n ≤ 32 := ⟨Nat.le_add_left 1 _, h⟩
  obtain ⟨eax, heax⟩ : ∃ eax, eax = mulBl (BitVec.ofNat 32 n - 1) 32 := ⟨_, rfl⟩
  have hplace : eax.toNat = 32 * (confused n - 1) := heax ▸ place_eq h1 h2
  have hsize : ((superBlock sectCnt ROOT_DEV_NR).inodeIsizeOff +
      BitVec.ofNat 32 KERNEL_OFFSET + eax).toNat =
        32 * (confused n - 1) + 4 := by
    have h4 : ((superBlock sectCnt ROOT_DEV_NR).inodeIsizeOff +
        BitVec.ofNat 32 KERNEL_OFFSET).toNat = 4 := rfl
    rw [BitVec.toNat_add, h4]
    omega
  have hstart : ((BitVec.ofNat 32 KERNEL_OFFSET).setWidth 16 + (addAx eax
      ((superBlock sectCnt ROOT_DEV_NR).inodeStartOff.setWidth 16)).setWidth
        16).toNat = 32 * (confused n - 1) + 8 := by
    have h0 : ((BitVec.ofNat 32 KERNEL_OFFSET).setWidth 16).toNat = 0 := rfl
    have h8 : ((superBlock sectCnt ROOT_DEV_NR).inodeStartOff.setWidth
        16).toNat = 8 := rfl
    rw [BitVec.toNat_add, h0, BitVec.toNat_setWidth, addAx_toNat (by omega), h8]
    omega
  have h32 : (superBlock sectCnt ROOT_DEV_NR).inodeSize = 32 := rfl
  simp only [readINode, h32, setWidth_size]
  rw [← heax, if_neg fun hlt => absurd ((pastBuffer_iff (by omega)).mp hlt)
    (by omega), hsize, hstart, buffer_word hm (by omega),
    buffer_word hm (by omega), BitVec.add_comm]
  rfl

end Registers

/-! ## The inode that is read -/

/-- `p` is what `get_file_inode(ROOT_DEV, n)` reads from the drive when the
    inode is not in the table. -/
def Reads (sectCnt : BitVec 32) (drive : Nat → Byte) (n : Nat) (p : Inode) :
    Prop :=
  ∃ (s s' : Fs) (i : Fin NR_INODE), s.disk ROOT_DEV_NR = rootDisk drive ∧
    s.superOf ROOT_DEV_NR = some (superBlock sectCnt ROOT_DEV_NR) ∧
    s.cached ROOT_DEV_NR n = none ∧
    getFileInode ROOT_DEV_NR n s = .ok (some i) s' ∧ s'.inodeTable i = p

/-- `ReadINode` fails, or returns the first sector and the size of the inode
    the file system reads. -/
def InodeAgrees (sectCnt : BitVec 32) (drive es : Nat → Byte) (n : Nat) : Prop :=
  ∀ p, Reads sectCnt drive n p →
    readINode (superBlock sectCnt ROOT_DEV_NR) drive es (BitVec.ofNat 32 n) =
        none ∨
      readINode (superBlock sectCnt ROOT_DEV_NR) drive es (BitVec.ofNat 32 n) =
        some (ROOT_BASE + p.sectStart, p.fileSize)

section Reading

variable {sectCnt : BitVec 32} {drive es : Nat → Byte} {n : Nat} {p : Inode}

theorem reads_iff (h1 : 1 ≤ n)
    (h2 : n < (superBlock sectCnt ROOT_DEV_NR).nrInodes.toNat) :
    Reads sectCnt drive n p ↔
      p = diskInode (rootDisk drive) (superBlock sectCnt ROOT_DEV_NR)
        ROOT_DEV_NR n := by
  have hmade := superBlock_made sectCnt ROOT_DEV_NR
  have hst : Stored (superBlock sectCnt ROOT_DEV_NR) n := by
    rw [hmade.inodes] at h2
    exact stored_of_made hmade h1 (Nat.le_of_lt h2)
  constructor
  · rintro ⟨s, s', i, hdisk, hsb, hc, hrun, rfl⟩
    cases hf : s.freeInode with
    | none =>
        rw [getFileInode, if_neg (by omega), run_get_bind, hc] at hrun
        simp only [hf] at hrun
        cases hrun
    | some j =>
        obtain ⟨t', hrun', hinode⟩ :=
          getFileInode_load (by omega) hsb hst hc hf
        rw [hrun'] at hrun
        injection hrun with hij hs
        obtain rfl := Option.some.inj hij
        rw [← hs, hinode, hdisk]
  · rintro rfl
    obtain ⟨s, hs⟩ : ∃ s : Fs, s = { demoFs (rootDisk drive) ⟨0, 0, 0, 0, 0, 0, 0⟩ with
      superBlockTable := fun _ => superBlock sectCnt ROOT_DEV_NR } := ⟨_, rfl⟩
    have hfree : ∀ i, s.inodeTable i = ⟨0, 0, 0, 0, 0, 0, 0⟩ := by
      intro i
      rw [hs]
      exact ite_self _
    have hc : s.cached ROOT_DEV_NR n = none := by
      rw [Fs.cached, List.find?_eq_none]
      intro i _
      rw [hfree i]
      simp
    have hf : s.freeInode = some ⟨0, first_entry⟩ := by
      rw [Fs.freeInode]
      simp only [hfree]
      rfl
    have hsb : s.superOf ROOT_DEV_NR =
        some (superBlock sectCnt ROOT_DEV_NR) := by
      rw [hs]
      rfl
    obtain ⟨s', hrun, hinode⟩ := getFileInode_load (by omega) hsb hst hc hf
    refine ⟨s, s', ⟨0, first_entry⟩, hs ▸ rfl, hsb, hc, hrun, ?_⟩
    rw [hinode, hs]
    rfl

/-- **THE TWO READERS** agree where the low byte of `n - 1` is past the
    buffer, or stands for the inode `n`, or for one with the same first sector
    and the same size. -/
theorem inode_agrees_iff (h1 : 1 ≤ n)
    (h2 : n < (superBlock sectCnt ROOT_DEV_NR).nrInodes.toNat) :
    InodeAgrees sectCnt drive es n ↔
      n ≤ 256 ∨ 32 ≤ (n - 1) % 256 ∨
        let p := diskInode (rootDisk drive) (superBlock sectCnt ROOT_DEV_NR)
          ROOT_DEV_NR n
        let q := diskInode (rootDisk drive) (superBlock sectCnt ROOT_DEV_NR)
          ROOT_DEV_NR ((n - 1) % 256 + 1 : Nat)
        q.sectStart = p.sectStart ∧ q.fileSize = p.fileSize := by
  have h4096 : n < 4096 := by
    rw [(superBlock_made sectCnt ROOT_DEV_NR).inodes] at h2
    exact h2
  have hreads : ∀ p, Reads sectCnt drive n p ↔ _ := fun p => reads_iff h1 h2
  by_cases hfar : 32 < confused n
  · have hrefused : readINode (superBlock sectCnt ROOT_DEV_NR) drive es
        (BitVec.ofNat 32 n) = none := readINode_refused h1 h4096 hfar
    rw [confused] at hfar
    exact iff_of_true (fun p _ => Or.inl hrefused)
      (Or.inr (Or.inl (by omega)))
  · have hfound : readINode (superBlock sectCnt ROOT_DEV_NR) drive es
        (BitVec.ofNat 32 n) = _ := readINode_found h1 h4096 (by omega)
    constructor
    · intro h
      rcases h _ ((hreads _).mpr rfl) with hnone | hsome
      · rw [hfound] at hnone
        cases hnone
      · rw [hfound] at hsome
        have hpair := Prod.mk.inj (Option.some.inj hsome)
        exact Or.inr (Or.inr ⟨(BitVec.add_right_inj _).mp hpair.1, hpair.2⟩)
    · rintro (h | h | h) p hp
      · obtain rfl := (hreads p).mp hp
        refine Or.inr ?_
        rw [hfound, confused, show (n - 1) % 256 + 1 = n by omega]
      · rw [confused] at hfar
        omega
      · obtain rfl := (hreads p).mp hp
        refine Or.inr ?_
        rw [hfound]
        show some (ROOT_BASE + _, _) = _
        rw [confused, h.1, h.2]

end Reading

theorem inode_agrees_iff_289 :
    InodeAgrees 40960 (fun _ => 0) (fun _ => 0) 289 :=
  (inode_agrees_iff (by decide) (by decide)).mpr (Or.inr (Or.inl (by decide)))

/-- A file in the inode 257. -/
def demoFile : Inode where
  fileType := TYPE_REGULAR
  fileSize := 5
  sectStart := 2318
  nrSects := 2048
  dev := ROOT_DEV_NR
  cnt := 1
  nr := 257

/-- A drive with the root directory and that file. -/
def demoDrive : Nat → Byte :=
  put (put (fun _ => 0) (512 * ROOT_BASE.toNat + 7168) 16
      (entryOf (demoRoot 4112)))
    (512 * ROOT_BASE.toNat + 15360) 16 (entryOf demoFile)

/-- In the place of the file the root directory is loaded. -/
theorem wrong_inode_read : ¬ ∀ (sectCnt : BitVec 32) (drive es : Nat → Byte)
    (n : Nat), 1 ≤ n → n < (superBlock sectCnt ROOT_DEV_NR).nrInodes.toNat →
      InodeAgrees sectCnt drive es n := by
  intro hall
  obtain ⟨p, hp⟩ : ∃ p, p = diskInode (rootDisk demoDrive)
      (superBlock 40960 ROOT_DEV_NR) ROOT_DEV_NR (257 : Nat) := ⟨_, rfl⟩
  have hreads : Reads 40960 demoDrive 257 p :=
    (reads_iff (by decide) (by decide)).mpr hp
  have hfound : readINode (superBlock 40960 ROOT_DEV_NR) demoDrive (fun _ => 0)
      (BitVec.ofNat 32 257) = some (ROOT_BASE + 270, 4112) := by decide +kernel
  have hsize : p.fileSize = 5 := by
    rw [hp]
    decide +kernel
  rcases hall 40960 demoDrive (fun _ => 0) 257 (by decide) (by decide) p hreads
    with h | h
  · rw [hfound] at h
    cases h
  · rw [hfound] at h
    have hpair := Prod.mk.inj (Option.some.inj h)
    rw [hsize] at hpair
    exact absurd hpair.2 (by decide)

end KosBootInode
