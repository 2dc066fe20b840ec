import Kos.FileSystemProofs

/-! # The layout of a new file system

    `create_super_block` of `task/fs/fs.c`: the regions of a partition in
    sectors are the boot sector, the super block, one sector of inode map, the
    sector map, 256 sectors of inode array and the data.

    `Made sb` is what the functions on maps and inodes need of a super block
    that `mkfs` has made (`superBlock_made`). -/

namespace KosMkfs

open FlatMemory (Byte)
open KosFs

/-- What a super block is known by. -/
def MAGIC_V1 : BitVec 32 := 0x111

/-- The bits of a sector. -/
def SECTOR_BITS : BitVec 32 := 4096

/-- The fields `create_super_block` fills for a partition of `sectCnt` sectors,
    and the device `read_super_block` adds. -/
def superBlock (sectCnt : BitVec 32) (dev : Int) : SuperBlock where
  magic := MAGIC_V1
  nrInodes := SECTOR_BITS
  nrInodeSects := SECTOR_BITS * 32 / 512
  nrSects := sectCnt
  nrInodeMapSects := 1
  nrSectMapSects := sectCnt / SECTOR_BITS + 1
  nr1stDataSect := 1 + 1 + 1 + (sectCnt / SECTOR_BITS + 1) +
    SECTOR_BITS * 32 / 512
  rootInode := 1
  inodeSize := 32
  inodeIsizeOff := 4
  inodeStartOff := 8
  dirEntSize := 16
  dirEntInodeOff := 0
  dirEntFnameOff := 4
  sbDev := dev

/-- The regions, in sectors. -/
structure Made (sb : SuperBlock) : Prop where
  inodes : sb.nrInodes = 4096
  imap : sb.nrInodeMapSects = 1
  smap : 0 < sb.nrSectMapSects.toNat ∧ sb.nrSectMapSects.toNat ≤ 1048576
  first : sb.nr1stDataSect.toNat = 259 + sb.nrSectMapSects.toNat

/-- The first byte of the inode array. -/
def arrayByte (sb : SuperBlock) : Nat := 512 * (3 + sb.nrSectMapSects.toNat)

/-- The first byte of the data. -/
def dirByte (sb : SuperBlock) : Nat := 512 * sb.nr1stDataSect.toNat

theorem superBlock_made (sectCnt : BitVec 32) (dev : Int) :
    Made (superBlock sectCnt dev) := by
  have hdiv : (sectCnt / SECTOR_BITS).toNat = sectCnt.toNat / 4096 :=
    BitVec.toNat_udiv
  have hlt := sectCnt.isLt
  have hsmap : (sectCnt / SECTOR_BITS + 1).toNat = sectCnt.toNat / 4096 + 1 := by
    rw [BitVec.toNat_add, hdiv, show BitVec.toNat (1 : BitVec 32) = 1 from rfl]
    omega
  have hrest : (1 + 1 + 1 : BitVec 32).toNat = 3 ∧
      (SECTOR_BITS * 32 / 512).toNat = 256 := by decide
  refine ⟨rfl, rfl, ?_, ?_⟩
  · show 0 < (sectCnt / SECTOR_BITS + 1).toNat ∧
      (sectCnt / SECTOR_BITS + 1).toNat ≤ 1048576
    rw [hsmap]
    omega
  · show (1 + 1 + 1 + (sectCnt / SECTOR_BITS + 1) +
      SECTOR_BITS * 32 / 512).toNat = 259 + (sectCnt / SECTOR_BITS + 1).toNat
    rw [BitVec.toNat_add, BitVec.toNat_add, hsmap, hrest.1, hrest.2]
    omega

/-! ## A small partition -/

theorem first_entry : 0 < NR_INODE := by decide

/-- One inode, that of the root, in a table over the bytes `f` of a partition
    of 40960 sectors. -/
def demoFs (f : Nat → Byte) (root : Inode) : Fs where
  disk := fun _ => f
  writes := []
  fsbuf := fun _ => 0
  superBlockTable := fun _ => superBlock 40960 ROOT_DEV_NR
  inodeTable := fun i => if i.val = 0 then root else ⟨0, 0, 0, 0, 0, 0, 0⟩
  fileDescTable := fun _ => ⟨0, 0, 0, none⟩
  fileDesc := fun _ _ => none
  rootInode := ⟨0, first_entry⟩

/-- The root directory as `mkfs` makes it, with `size` bytes. -/
def demoRoot (size : BitVec 32) : Inode where
  fileType := TYPE_DIRECTORY
  fileSize := size
  sectStart := 270
  nrSects := 2048
  dev := ROOT_DEV_NR
  cnt := 1
  nr := ROOT_INODE_NR

end KosMkfs
