import Kos.MkfsProofs
import Kos.OpenFileProofs

/-! # The start of the file system

    `init_fs` and `mkfs` of `task/fs/fs.c`.  A disk whose second sector has no
    magic number gets a new file system: its super block, the maps, the inodes
    and the entries of the root directory.

    * A super block is read back as it was written (`superAt_putSuper`);
    * on a disk with a file system `init_fs` only fills the tables
      (`initFs_formatted`). -/

namespace KosInitFs

open FlatMemory (Byte)
open Overlay
open KosFs
open KosMkfs
open KosOpenFile (putEntry)
open KosSectorMap (demoMap)

/-- Of `const.h` and `config.h`. -/
def NR_CONSOLES : Nat := 3
def NR_MAJOR_DEV_CHAR_TTY : BitVec 32 := 4
def INSTALL_START_SECT : BitVec 32 := 0x8000
def INSTALL_NR_SECTS : BitVec 32 := 0x800
def NR_SECTS_FOR_LOG : BitVec 32 := BitVec.ofNat 32 NR_FILE_SECTS

/-! ## The super block -/

/-- The fields that are on disk, in order. -/
def superFields (sb : SuperBlock) : List (BitVec 32) :=
  [sb.magic, sb.nrInodes, sb.nrSects, sb.nrInodeMapSects, sb.nrSectMapSects,
    sb.nr1stDataSect, sb.nrInodeSects, sb.rootInode, sb.inodeSize,
    sb.inodeIsizeOff, sb.inodeStartOff, sb.dirEntSize, sb.dirEntInodeOff,
    sb.dirEntFnameOff]

/-- `memcpy(fsbuf, sb, SUPER_BLOCK_SIZE)`. -/
def putSuper (b : Nat → Byte) (sb : SuperBlock) : Nat → Byte :=
  put b 0 56 fun k => bytesOf ((superFields sb).getD (k / 4) 0) (k % 4)

/-- The super block in a buffer, for a device. -/
def superAt (b : Nat → Byte) (dev : Int) : SuperBlock where
  magic := word b (4 * 0)
  nrInodes := word b (4 * 1)
  nrSects := word b (4 * 2)
  nrInodeMapSects := word b (4 * 3)
  nrSectMapSects := word b (4 * 4)
  nr1stDataSect := word b (4 * 5)
  nrInodeSects := word b (4 * 6)
  rootInode := word b (4 * 7)
  inodeSize := word b (4 * 8)
  inodeIsizeOff := word b (4 * 9)
  inodeStartOff := word b (4 * 10)
  dirEntSize := word b (4 * 11)
  dirEntInodeOff := word b (4 * 12)
  dirEntFnameOff := word b (4 * 13)
  sbDev := dev

theorem word_putSuper (b : Nat → Byte) (sb : SuperBlock) {j : Nat}
    (hj : j < 14) :
    word (putSuper b sb) (4 * j) = (superFields sb).getD j 0 := by
  rw [← word_putWord b (4 * j) ((superFields sb).getD j 0)]
  refine word_congr fun k hk => ?_
  rw [putSuper, put_of_in (by omega), Nat.sub_zero, putWord, put_at hk,
    show (4 * j + k) / 4 = j by omega, show (4 * j + k) % 4 = k by omega]

theorem superAt_putSuper (b : Nat → Byte) (sb : SuperBlock) :
    superAt (putSuper b sb) sb.sbDev = sb := by
  cases sb with
  | mk =>
      rw [superAt]
      congr 1 <;> exact word_putSuper b _ (by decide)

/-- `memset(fsbuf, v, SECTOR_SIZE)`. -/
def fillBuf (v : Byte) : FsM Unit := setBuf fun b => put b 0 512 fun _ => v

/-- `fsbuf[j] |= 1 << k`. -/
def orBit (j k : Nat) : FsM Unit :=
  setBuf fun b => Function.update b j (b j ||| (1 : Byte) <<< k)

/-! ## `mkfs` -/

/-- `create_super_block`, for a partition of `sectCnt` sectors. -/
def createSuperBlock (sectCnt : BitVec 32) : FsM SuperBlock := do
  let sb := superBlock sectCnt ROOT_DEV_NR
  fillBuf 0x90
  setBuf fun b => putSuper b sb
  wrSects ROOT_DEV_NR 1 1
  pure sb

/-- `create_inode_map`. -/
def createInodeMap : FsM Unit := do
  fillBuf 0
  (List.range (NR_CONSOLES + 3)).forM (orBit 0)
  let s ← get
  check (s.fsbuf 0 = 0x3F)
  wrSects ROOT_DEV_NR 2 1

/-- The sector `i` of the sector map. -/
def mapSect (sb : SuperBlock) (i : Int) : Int :=
  (2 + sb.nrInodeMapSects + BitVec.ofInt 32 i).toInt

/-- `create_sector_map`. -/
def createSectorMap (sb : SuperBlock) : FsM Unit := do
  let nrSects := NR_FILE_SECTS + 1
  fillBuf 0
  (List.range (nrSects / 8)).forM fun i =>
    setBuf fun b => Function.update b i 0xFF
  (List.range (nrSects % 8)).forM (orBit (nrSects / 8))
  wrSects ROOT_DEV_NR (mapSect sb 0) 1
  fillBuf 0
  (List.range (sb.nrSectMapSects.toNat - 1)).forM fun i =>
    wrSects ROOT_DEV_NR (mapSect sb (i + 1 : Nat)) 1

/-- The loop over the bits of `cmd.tar`: `cur_sect` behind it.  A negative bit
    has no byte. -/
def tarBits (sb : SuperBlock) : Nat → Int → Int → FsM Int
  | 0, _, cur => pure cur
  | left + 1, off, cur =>
      if off < 0 then throw .fault
      else do
        orBit (off.toNat / 8) (off.toNat % 8)
        if off + 1 = 4096 then do
          wrSects ROOT_DEV_NR (mapSect sb cur) 1
          rdSects ROOT_DEV_NR (mapSect sb (cur + 1)) 1
          tarBits sb left 0 (cur + 1)
        else tarBits sb left (off + 1) cur

/-- `create_cmd_dot_tar`. -/
def createCmdDotTar (sb : SuperBlock) : FsM Unit := do
  check (INSTALL_START_SECT + INSTALL_NR_SECTS < sb.nrSects - NR_SECTS_FOR_LOG)
  let bitOffset := (INSTALL_START_SECT - sb.nr1stDataSect + 1).toInt
  let curSect := bitOffset.tdiv 4096
  rdSects ROOT_DEV_NR (mapSect sb curSect) 1
  let curSect ← tarBits sb INSTALL_NR_SECTS.toNat (bitOffset.tmod 4096) curSect
  wrSects ROOT_DEV_NR (mapSect sb curSect) 1

/-- The inodes of a new file system, from number 1 on. -/
def rootInodeOf (sb : SuperBlock) : Inode where
  fileType := TYPE_DIRECTORY
  fileSize := 16 * 5
  sectStart := sb.nr1stDataSect
  nrSects := BitVec.ofNat 32 NR_FILE_SECTS
  dev := ROOT_DEV_NR
  cnt := 1
  nr := ROOT_INODE_NR

/-- The inode of a terminal. -/
def ttyInode (i : Nat) : Inode where
  fileType := TYPE_SPECIAL_CHAR
  fileSize := 0
  sectStart := NR_MAJOR_DEV_CHAR_TTY <<< 8 ||| BitVec.ofNat 32 i
  nrSects := 0
  dev := ROOT_DEV_NR
  cnt := 1
  nr := i + 2

/-- The inode of `cmd.tar`. -/
def tarInode : Inode where
  fileType := TYPE_REGULAR
  fileSize := INSTALL_NR_SECTS * 512
  sectStart := INSTALL_START_SECT
  nrSects := INSTALL_NR_SECTS
  dev := ROOT_DEV_NR
  cnt := 1
  nr := NR_CONSOLES + 2

/-- The inodes that `mkfs` writes. -/
def newInodes (sb : SuperBlock) : List Inode :=
  rootInodeOf sb :: (List.range NR_CONSOLES).map ttyInode ++ [tarInode]

/-- `create_inode_array`. -/
def createInodeArray (sb : SuperBlock) : FsM Unit := do
  fillBuf 0
  (newInodes sb).zipIdx.forM fun p =>
    setBuf fun b => putInodeFields b (32 * p.2) p.1
  wrSects ROOT_DEV_NR
    (2 + sb.nrInodeMapSects + sb.nrSectMapSects).toInt 1

/-- The characters of `.`, `dev_tty` and `cmd.tar`. -/
def dotName : List Byte := [0x2E]

/-- `dev_tty0` and so on. -/
def ttyName (i : Nat) : List Byte :=
  [0x64, 0x65, 0x76, 0x5F, 0x74, 0x74, 0x79, 0x30 + BitVec.ofNat 8 i]

/-- `cmd.tar` -/
def tarName : List Byte := [0x63, 0x6D, 0x64, 0x2E, 0x74, 0x61, 0x72]

/-- The entries of a new root directory: the numbers and the names. -/
def newEntries : List (Int × List Byte) :=
  (1, dotName) ::
    (List.range NR_CONSOLES).map (fun i : Nat => ((i : Int) + 2, ttyName i)) ++
    [((NR_CONSOLES : Int) + 2, tarName)]

/-- `create_root_directory`. -/
def createRootDirectory (sb : SuperBlock) : FsM Unit := do
  fillBuf 0
  newEntries.zipIdx.forM fun p =>
    setBuf fun b => putEntry b (16 * p.2) p.1.1 p.1.2
  wrSects ROOT_DEV_NR sb.nr1stDataSect.toInt 1

/-- `mkfs`, with what DEV_IOCTL answers. -/
def mkfs (sectCnt : BitVec 32) : FsM Unit := do
  let sb ← createSuperBlock sectCnt
  createInodeMap
  createSectorMap sb
  createCmdDotTar sb
  createInodeArray sb
  createRootDirectory sb

/-! ## `init_fs` -/

/-- The tables with nothing in them. -/
def clearTables (s : Fs) : Fs :=
  { s with
    fileDescTable := fun _ => ⟨0, 0, 0, none⟩
    inodeTable := fun _ => ⟨0, 0, 0, 0, 0, 0, 0⟩
    superBlockTable := fun k =>
      { s.superBlockTable k with sbDev := NR_MAJOR_NO_DEV } }

/-- The first free entry of `super_block_table`. -/
def freeSuper (s : Fs) : Option (Fin NR_SUPER_BLOCK) :=
  (List.finRange NR_SUPER_BLOCK).find? fun k =>
    (s.superBlockTable k).sbDev = NR_MAJOR_NO_DEV

/-- `read_super_block`. -/
def readSuperBlock (dev : Int) : FsM Unit := do
  rdSects dev 1 1
  let s ← get
  match freeSuper s with
  | none => throw .panic
  | some k => do
      check (k.val = 0)
      modify fun s => { s with
        superBlockTable := Function.update s.superBlockTable k
          (superAt s.fsbuf dev) }

/-- `init_fs`, on a root device of `sectCnt` sectors. -/
def initFs (sectCnt : BitVec 32) : FsM Unit := do
  modify clearTables
  rdSects ROOT_DEV_NR 1 1
  let s ← get
  if word s.fsbuf 0 ≠ MAGIC_V1 then mkfs sectCnt
  else pure ()
  readSuperBlock ROOT_DEV_NR
  let sb ← getSuperBlock ROOT_DEV_NR
  check (sb.magic = MAGIC_V1)
  let p ← getFileInode ROOT_DEV_NR ROOT_INODE_NR
  match p with
  | none => throw .fault
  | some i => modify fun s => { s with rootInode := i }

/-! ## The image of a new file system -/

/-- The first sector of the inode array. -/
def inodeBytes (sb : SuperBlock) : Nat → Byte :=
  (newInodes sb).zipIdx.foldl (fun b p => putInodeFields b (32 * p.2) p.1)
    fun _ => 0

/-- The first sector of the root directory. -/
def entryBytes : Nat → Byte :=
  newEntries.zipIdx.foldl (fun b p => putEntry b (16 * p.2) p.1.1 p.1.2)
    fun _ => 0

/-- A small disk with a new file system. -/
def demoDisk : Nat → Byte :=
  let sb := superBlock 40960 ROOT_DEV_NR
  let f₁ := put (fun _ => 0) 512 56 (putSuper (fun _ => 0) sb)
  let f₂ := put (put f₁ 1024 1 fun _ => 0x3F) 1536 5632 (demoMap 0)
  put (put f₂ (arrayByte sb) 512 (inodeBytes sb)) (dirByte sb) 512 entryBytes

/-! ## A disk with a file system -/

section Formatted

variable {s : Fs} {sectCnt : BitVec 32} {sb : SuperBlock}

/-- An entry of `inode_table` that is not in use. -/
def freeEntry : Inode := ⟨0, 0, 0, 0, 0, 0, 0⟩

/-- The tables after `init_fs`: the super block and the root inode. -/
structure Started (s : Fs) (sb : SuperBlock) (t : Fs) : Prop where
  disk : t.disk = s.disk
  super : t.superOf ROOT_DEV_NR = some sb
  inodes : t.inodeTable = Function.update (fun _ => freeEntry) t.rootInode
    (diskInode (s.disk ROOT_DEV_NR) sb ROOT_DEV_NR ROOT_INODE_NR)
  descs : t.fileDescTable = fun _ => ⟨0, 0, 0, none⟩
  slots : t.fileDesc = s.fileDesc

theorem first_super : 0 < NR_SUPER_BLOCK := by decide

theorem superAt_put (b g : Nat → Byte) (dev : Int) :
    superAt (put b 0 512 g) dev = superAt g dev := rfl

variable (dev : Int) in
theorem readSuperBlock_run {k : Fin NR_SUPER_BLOCK}
    (hfree : freeSuper s = some k) (hk : k.val = 0) :
    readSuperBlock dev s = .ok () { s with
      fsbuf := put s.fsbuf 0 512 (drop (s.disk dev) 512)
      superBlockTable := Function.update s.superBlockTable k
        (superAt (drop (s.disk dev) 512) dev) } := by
  have hrd : rdSects dev 1 1 s = .ok () { s with
      fsbuf := put s.fsbuf 0 512 (drop (s.disk dev) 512) } :=
    run_rdSects.mpr ⟨by decide, rfl⟩
  have hfree' : freeSuper { s with
      fsbuf := put s.fsbuf 0 512 (drop (s.disk dev) 512) } = some k := hfree
  rw [readSuperBlock, run_bind_of hrd, run_get_bind, hfree']
  dsimp only
  rw [run_bind_of (run_check_of hk),
    ← superAt_put s.fsbuf (drop (s.disk dev) 512)]
  rfl

/-- **`init_fs`** on a disk with a file system fills the tables. -/
theorem initFs_formatted
    (hsb : superAt (drop (s.disk ROOT_DEV_NR) 512) ROOT_DEV_NR = sb)
    (hmagic : sb.magic = MAGIC_V1) (hroot : Stored sb ROOT_INODE_NR) :
    ∃ t, initFs sectCnt s = .ok () t ∧ Started s sb t := by
  obtain ⟨s₁, hs₁⟩ : ∃ s₁, s₁ = { clearTables s with
    fsbuf := put s.fsbuf 0 512 (drop (s.disk ROOT_DEV_NR) 512) } := ⟨_, rfl⟩
  have hrd : rdSects ROOT_DEV_NR 1 1 (clearTables s) = .ok () s₁ := by
    rw [hs₁]
    exact run_rdSects.mpr ⟨by decide, rfl⟩
  have hdisk : s₁.disk = s.disk := by rw [hs₁]; rfl
  have hword : word s₁.fsbuf 0 = MAGIC_V1 := by
    rw [hs₁, ← hmagic, ← hsb]
    exact word_congr fun k hk => put_of_in (by omega)
  -- the tables are cleared, so each search takes the first slot
  have hfree : freeSuper s₁ = some ⟨0, first_super⟩ := by rw [hs₁]; rfl
  have hread := readSuperBlock_run ROOT_DEV_NR hfree rfl
  rw [hdisk, hsb] at hread
  obtain ⟨s₂, hs₂⟩ : ∃ s₂ : Fs, s₂ = { s₁ with
    disk := s.disk
    fsbuf := put s₁.fsbuf 0 512 (drop (s.disk ROOT_DEV_NR) 512)
    superBlockTable := Function.update s₁.superBlockTable ⟨0, first_super⟩
      sb } := ⟨_, rfl⟩
  rw [← hs₂] at hread
  have hsuper : s₂.superOf ROOT_DEV_NR = some sb := by
    have hdev : sb.sbDev = ROOT_DEV_NR := by rw [← hsb]; rfl
    have hzero : s₂.superBlockTable ⟨0, first_super⟩ = sb := by
      rw [hs₂]
      rfl
    have hfirst : List.finRange NR_SUPER_BLOCK =
        ⟨0, first_super⟩ :: (List.finRange NR_SUPER_BLOCK).tail := rfl
    rw [Fs.superOf, hfirst, List.find?_cons_of_pos, Option.map_some, hzero]
    rw [hzero]
    exact decide_eq_true hdev
  have hcached : s₂.cached ROOT_DEV_NR ROOT_INODE_NR = none := by
    rw [hs₂, hs₁]
    rfl
  have hentry : s₂.freeInode = some ⟨0, first_entry⟩ := by
    rw [hs₂, hs₁]
    rfl
  have hdisk₂ : s₂.disk = s.disk := by rw [hs₂]
  obtain ⟨t, ht⟩ : ∃ t, t = { s₂.updInode ⟨0, first_entry⟩ fun _ =>
      diskInode (s₂.disk ROOT_DEV_NR) sb ROOT_DEV_NR ROOT_INODE_NR with
    fsbuf := put s₂.fsbuf 0 512 (drop (s₂.disk ROOT_DEV_NR)
      (512 * (inodeSector sb ROOT_INODE_NR).toNat)) } := ⟨_, rfl⟩
  have hload : loadInode ROOT_DEV_NR ROOT_INODE_NR ⟨0, first_entry⟩ s₂ =
      .ok () t := run_loadInode.mpr ⟨sb, hsuper, hroot, ht⟩
  have hget : getFileInode ROOT_DEV_NR ROOT_INODE_NR s₂ =
      .ok (some ⟨0, first_entry⟩) t := by
    rw [getFileInode, if_neg (by decide), run_get_bind, hcached, hentry]
    dsimp only
    rw [run_bind_of hload]
    rfl
  refine ⟨{ t with rootInode := ⟨0, first_entry⟩ }, ?_, ?_, ?_, ?_, ?_, ?_⟩
  · have hmod : (modify clearTables : FsM PUnit) s = .ok () (clearTables s) :=
      rfl
    rw [initFs, run_bind_of hmod, run_bind_of hrd, run_get_bind,
      if_neg (fun h => h hword)]
    refine (run_bind_of hread).trans ?_
    rw [run_bind_of (run_getSuperBlock.mpr ⟨hsuper, rfl⟩),
      run_bind_of (run_check_of hmagic), run_bind_of hget]
    rfl
  · rw [ht]
    exact hdisk₂
  · rw [ht]
    exact hsuper
  · rw [ht, ← hdisk₂, hs₂, hs₁]
    rfl
  · rw [ht, hs₂, hs₁]
    rfl
  · rw [ht, hs₂, hs₁]
    rfl

end Formatted

end KosInitFs
