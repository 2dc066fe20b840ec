import Kos.KernelProofs
import Kos.OverlayProofs
import Mathlib.Logic.Function.Basic

/-! # The state of the file system

    The tables of `include/sys/fs.h`, the transfers of sectors to and from
    `fsbuf`, and the functions of `task/fs/fs.c` on super blocks and inodes.

    * A device is a sequence of bytes; the driver stores what it is given.
      `(start_sect_nr) * SECTOR_SIZE` is an `int` product: a sector whose
      position does not fit has no place on the disk (`seek`).
    * Functions run in `FsM`, which keeps the state also where the machine
      stops, and records every write request in `writes`.
    * A `u32` is a bit vector and an `int` an integer; where they meet the
      arithmetic is that of `u32`. -/

namespace KosFs

open FlatMemory (Byte append_bytes)
open KosKernel (Halt)
open Overlay

/-! ## Constants of `const.h` -/

/-- Of `fs.h` and `const.h`. -/
def SECTOR_SIZE : Nat := 512
def FS_BUF_SIZE : Nat := 0x100000
def NR_FILES : Nat := 64
def NR_FILE_DESC : Nat := 64
def NR_INODE : Nat := 64
def NR_SUPER_BLOCK : Nat := 8
def NR_FILE_SECTS : Nat := 2048

/-- The layout on disk, and the numbers with a meaning of their own. -/
def INODE_SIZE : Nat := 32
def DIR_ENTRY_SIZE : Nat := 16
def INVALID_INODE : Int := 0
def ROOT_INODE_NR : Int := 1
def NR_MAJOR_NO_DEV : Int := 0
def ROOT_DEV_NR : Int := 0x320

/-- The types of an inode. -/
def TYPE_MASK : BitVec 32 := 0xF000
def TYPE_REGULAR : BitVec 32 := 0x8000
def TYPE_DIRECTORY : BitVec 32 := 0x4000
def TYPE_SPECIAL_CHAR : BitVec 32 := 0x2000

/-! ## The tables -/

/-- The fields of `struct super_block` that the functions read. -/
structure SuperBlock where
  magic : BitVec 32
  nrInodes : BitVec 32
  nrSects : BitVec 32
  nrInodeMapSects : BitVec 32
  nrSectMapSects : BitVec 32
  nr1stDataSect : BitVec 32
  nrInodeSects : BitVec 32
  rootInode : BitVec 32
  inodeSize : BitVec 32
  inodeIsizeOff : BitVec 32
  inodeStartOff : BitVec 32
  dirEntSize : BitVec 32
  dirEntInodeOff : BitVec 32
  dirEntFnameOff : BitVec 32
  sbDev : Int
  deriving DecidableEq

/-- `struct inode`: what is on disk, and what the table adds. -/
structure Inode where
  fileType : BitVec 32
  fileSize : BitVec 32
  sectStart : BitVec 32
  nrSects : BitVec 32
  dev : Int
  cnt : Int
  nr : Int
  deriving DecidableEq

/-- An entry of `file_desc_table`; `fd_inode` points into `inode_table` or is
    null. -/
structure FileDesc where
  mode : BitVec 32
  pos : Int
  cnt : Int
  inode : Option (Fin NR_INODE)
  deriving DecidableEq

/-- The state of task FS and of its disks. -/
structure Fs where
  /-- the bytes of each device -/
  disk : Int → Nat → Byte
  /-- the write requests: device, first sector, number of sectors -/
  writes : List (Int × Nat × Nat)
  fsbuf : Nat → Byte
  superBlockTable : Fin NR_SUPER_BLOCK → SuperBlock
  inodeTable : Fin NR_INODE → Inode
  fileDescTable : Fin NR_FILE_DESC → FileDesc
  /-- `file_desc` of each process -/
  fileDesc : Int → Fin NR_FILES → Option (Fin NR_FILE_DESC)
  rootInode : Fin NR_INODE

/-- An entry of `inode_table` changes. -/
def Fs.updInode (s : Fs) (i : Fin NR_INODE) (f : Inode → Inode) : Fs :=
  { s with inodeTable := Function.update s.inodeTable i (f (s.inodeTable i)) }

/-- An entry of `file_desc_table` changes. -/
def Fs.updDesc (s : Fs) (d : Fin NR_FILE_DESC) (f : FileDesc → FileDesc) : Fs :=
  { s with
    fileDescTable := Function.update s.fileDescTable d (f (s.fileDescTable d)) }

section Update

variable (s : Fs) {i j : Fin NR_INODE} {d e : Fin NR_FILE_DESC}

/-- The entry that changes. -/
@[simp] theorem updInode_self (f : Inode → Inode) :
    (s.updInode i f).inodeTable i = f (s.inodeTable i) :=
  Function.update_self ..

/-- The other entries. -/
theorem updInode_of_ne (f : Inode → Inode) (h : j ≠ i) :
    (s.updInode i f).inodeTable j = s.inodeTable j :=
  Function.update_of_ne h ..

/-- The descriptor that changes. -/
@[simp] theorem updDesc_self (f : FileDesc → FileDesc) :
    (s.updDesc d f).fileDescTable d = f (s.fileDescTable d) :=
  Function.update_self ..

/-- The other descriptors. -/
theorem updDesc_of_ne (f : FileDesc → FileDesc) (h : e ≠ d) :
    (s.updDesc d f).fileDescTable e = s.fileDescTable e :=
  Function.update_of_ne h ..

end Update

/-! ## Running -/

/-- A computation on the file system. -/
abbrev FsM := EStateM Halt Fs

/-- `assert(exp)`. -/
def check (c : Prop) [Decidable c] : FsM Unit :=
  if c then pure () else throw .assertionFailure

/-- An `int` sum. -/
def intAdd (a b : Int) : FsM Int :=
  if -2147483648 ≤ a + b ∧ a + b < 2147483648 then pure (a + b)
  else throw .fault

section Run

variable {α β : Type} {s s' : Fs}

@[simp] theorem run_pure (a : α) : (pure a : FsM α) s = .ok a s := rfl

/-- A sequence succeeds when both parts do. -/
theorem run_bind {x : FsM α} {f : α → FsM β} {b : β} :
    (x >>= f) s = .ok b s' ↔ ∃ a t, x s = .ok a t ∧ f a t = .ok b s' := by
  show EStateM.bind x f s = _ ↔ _
  unfold EStateM.bind
  cases hx : x s with
  | ok a t =>
      constructor
      · intro h; exact ⟨a, t, rfl, h⟩
      · rintro ⟨a', t', h, h'⟩; cases h; exact h'
  | error e t =>
      constructor
      · intro h; cases h
      · rintro ⟨a', t', h, -⟩; cases h

/-- The second part runs in the state the first has left. -/
theorem run_bind_of {x : FsM α} {f : α → FsM β} {a : α} {t : Fs}
    (h : x s = .ok a t) : (x >>= f) s = f a t := by
  show EStateM.bind x f s = _
  unfold EStateM.bind
  rw [h]

/-- A program can be replaced by one that does the same. -/
theorem run_bind_congr {x y : FsM α} {f : α → FsM β} (h : x s = y s) :
    (x >>= f) s = (y >>= f) s := by
  show EStateM.bind x f s = EStateM.bind y f s
  unfold EStateM.bind
  rw [h]

/-- Where the first part stops the sequence stops. -/
theorem run_bind_error {x : FsM α} {f : α → FsM β} {e : Halt} {t : Fs}
    (h : x s = .error e t) : (x >>= f) s = .error e t := by
  show EStateM.bind x f s = _
  unfold EStateM.bind
  rw [h]

/-- An assertion goes on where it holds. -/
@[simp] theorem run_check {c : Prop} [Decidable c] {u : Unit} :
    check c s = .ok u s' ↔ c ∧ s = s' := by
  unfold check
  by_cases h : c
  · rw [if_pos h, run_pure]
    constructor
    · intro hr; cases hr; exact ⟨h, rfl⟩
    · rintro ⟨-, rfl⟩; rfl
  · rw [if_neg h]
    constructor
    · intro hr; cases hr
    · rintro ⟨hc, -⟩; exact absurd hc h

/-- It does where it holds. -/
theorem run_check_of {c : Prop} [Decidable c] (h : c) :
    check c s = .ok () s := run_check.mpr ⟨h, rfl⟩

/-- And stops where it does not. -/
theorem run_check_error {c : Prop} [Decidable c] (h : ¬ c) :
    check c s = .error .assertionFailure s := by
  rw [check, if_neg h]
  rfl

/-- The state is read. -/
@[simp] theorem run_get {a : Fs} :
    (get : FsM Fs) s = .ok a s' ↔ s = a ∧ s = s' := by
  constructor
  · intro h; cases h; exact ⟨rfl, rfl⟩
  · rintro ⟨rfl, rfl⟩; rfl

/-- The state is changed. -/
@[simp] theorem run_modify {f : Fs → Fs} {u : PUnit} :
    (modify f : FsM PUnit) s = .ok u s' ↔ s' = f s := by
  constructor
  · intro h; cases h; rfl
  · rintro rfl; rfl

theorem run_get_bind {f : Fs → FsM β} :
    ((get : FsM Fs) >>= f) s = f s s := rfl

/-- An addition of `int` that does not overflow. -/
theorem run_intAdd {a b c : Int} :
    intAdd a b s = .ok c s' ↔
      (-2147483648 ≤ a + b ∧ a + b < 2147483648) ∧ a + b = c ∧ s = s' := by
  unfold intAdd
  by_cases h : -2147483648 ≤ a + b ∧ a + b < 2147483648
  · rw [if_pos h, run_pure]
    constructor
    · intro hr; cases hr; exact ⟨h, rfl, rfl⟩
    · rintro ⟨-, rfl, rfl⟩; rfl
  · rw [if_neg h]
    constructor
    · intro hr; cases hr
    · rintro ⟨hc, -⟩; exact absurd hc h

end Run

/-! ## Sectors -/

/-- A sector whose position is an `int`. -/
def Addressed (n : Int) : Prop := 0 ≤ n ∧ n * 512 < 2147483648

instance (n : Int) : Decidable (Addressed n) :=
  inferInstanceAs (Decidable (_ ∧ _))

/-- The argument of `RD_SECT` and its like. -/
def seek (n : Int) : FsM Nat :=
  if Addressed n then pure n.toNat else throw .fault

/-- `RD_SECTS`. -/
def rdSects (dev n : Int) (count : Nat) : FsM Unit := do
  let p ← seek n
  modify fun s => { s with
    fsbuf := put s.fsbuf 0 (512 * count) (drop (s.disk dev) (512 * p)) }

/-- `WR_SECTS`. -/
def wrSects (dev n : Int) (count : Nat) : FsM Unit := do
  let p ← seek n
  modify fun s => { s with
    disk := Function.update s.disk dev
      (put (s.disk dev) (512 * p) (512 * count) s.fsbuf)
    writes := s.writes ++ [(dev, p, count)] }

/-- Bytes go from memory into `fsbuf`. -/
def setBuf (f : (Nat → Byte) → Nat → Byte) : FsM Unit :=
  modify fun s => { s with fsbuf := f s.fsbuf }

section Sectors

variable {s s' : Fs} {dev n : Int} {count : Nat} {u : Unit}

/-- A sector that is on the device. -/
theorem run_seek {p : Nat} :
    seek n s = .ok p s' ↔ Addressed n ∧ n.toNat = p ∧ s = s' := by
  unfold seek
  by_cases h : Addressed n
  · rw [if_pos h, run_pure]
    constructor
    · intro hr; cases hr; exact ⟨h, rfl, rfl⟩
    · rintro ⟨-, rfl, rfl⟩; rfl
  · rw [if_neg h]
    constructor
    · intro hr; cases hr
    · rintro ⟨hn, -⟩; exact absurd hn h

/-- **A READ** brings the sectors into the buffer. -/
theorem run_rdSects : rdSects dev n count s = .ok u s' ↔ Addressed n ∧
    s' = { s with fsbuf := put s.fsbuf 0 (512 * count)
                    (drop (s.disk dev) (512 * n.toNat)) } := by
  simp only [rdSects, run_bind, run_seek, run_modify]
  constructor
  · rintro ⟨p, t, ⟨hn, rfl, rfl⟩, rfl⟩
    exact ⟨hn, rfl⟩
  · rintro ⟨hn, rfl⟩
    exact ⟨_, s, ⟨hn, rfl, rfl⟩, rfl⟩

/-- A sector that is not on the device. -/
theorem rdSects_fault (h : ¬ Addressed n) :
    rdSects dev n count s = .error .fault s := by
  have hseek : seek n s = .error .fault s := by
    rw [seek, if_neg h]
    rfl
  rw [rdSects, run_bind_error hseek]

/-- **A WRITE** takes them from the buffer. -/
theorem run_wrSects : wrSects dev n count s = .ok u s' ↔ Addressed n ∧
    s' = { s with
      disk := Function.update s.disk dev
        (put (s.disk dev) (512 * n.toNat) (512 * count) s.fsbuf)
      writes := s.writes ++ [(dev, n.toNat, count)] } := by
  simp only [wrSects, run_bind, run_seek, run_modify]
  constructor
  · rintro ⟨p, t, ⟨hn, rfl, rfl⟩, rfl⟩
    exact ⟨hn, rfl⟩
  · rintro ⟨hn, rfl⟩
    exact ⟨_, s, ⟨hn, rfl, rfl⟩, rfl⟩

/-- The buffer changes. -/
theorem run_setBuf {f : (Nat → Byte) → Nat → Byte} :
    setBuf f s = .ok u s' ↔ s' = { s with fsbuf := f s.fsbuf } := run_modify

end Sectors

/-! ## Words -/

/-- The `u32` at offset `o`. -/
def word (b : Nat → Byte) (o : Nat) : BitVec 32 :=
  b (o + 3) ++ b (o + 2) ++ b (o + 1) ++ b o

/-- The four bytes of a word, the lowest first. -/
def bytesOf (v : BitVec 32) (k : Nat) : Byte := v.extractLsb' (8 * k) 8

/-- Store a `u32` at offset `o`. -/
def putWord (b : Nat → Byte) (o : Nat) (v : BitVec 32) : Nat → Byte :=
  put b o 4 (bytesOf v)

/-- A word depends on its four bytes. -/
theorem word_congr {b b' : Nat → Byte} {o o' : Nat}
    (h : ∀ k < 4, b' (o' + k) = b (o + k)) : word b' o' = word b o := by
  rw [word, word, h 3 (by omega), h 2 (by omega), h 1 (by omega),
    show b' o' = b o from h 0 (by omega)]

/-- Its value. -/
theorem word_toNat (b : Nat → Byte) (o : Nat) : (word b o).toNat =
    ((((b (o + 3)).toNat * 256 + (b (o + 2)).toNat) * 256 +
      (b (o + 1)).toNat) * 256) + (b o).toNat := by
  have happend : ∀ {w : Nat} (x : BitVec w) (y : Byte),
      (x ++ y).toNat = x.toNat * 256 + y.toNat := by
    intro w x y
    rw [BitVec.toNat_append, ← Nat.shiftLeft_add_eq_or_of_lt y.isLt,
      Nat.shiftLeft_eq]
  rw [word, happend, happend, happend]

/-- The word that was taken apart. -/
@[simp] theorem word_bytesOf (v : BitVec 32) : word (bytesOf v) 0 = v :=
  append_bytes v

/-- The word that was put there. -/
theorem word_putWord (b : Nat → Byte) (o : Nat) (v : BitVec 32) :
    word (putWord b o v) o = v := by
  rw [← word_bytesOf v]
  refine word_congr fun k hk => ?_
  rw [word_bytesOf, putWord, put_at hk, Nat.zero_add]

/-- Another word. -/
theorem word_putWord_of_out {b : Nat → Byte} {o o' : Nat} {v : BitVec 32}
    (h : o + 4 ≤ o' ∨ o' + 4 ≤ o) : word (putWord b o' v) o = word b o :=
  word_congr fun k hk => put_of_out (by omega)

/-- A word behind some bytes. -/
theorem word_drop (b : Nat → Byte) (a o : Nat) :
    word (drop b a) o = word b (a + o) :=
  word_congr fun k _ => by rw [drop, Nat.add_assoc]

/-! ## Super blocks and inodes -/

/-- The super block of a device. -/
def Fs.superOf (s : Fs) (dev : Int) : Option SuperBlock :=
  ((List.finRange NR_SUPER_BLOCK).find? fun k =>
    (s.superBlockTable k).sbDev = dev).map s.superBlockTable

/-- The super block depends on its table. -/
theorem superOf_congr {s t : Fs} {dev : Int}
    (h : t.superBlockTable = s.superBlockTable) :
    t.superOf dev = s.superOf dev := by
  rw [Fs.superOf, Fs.superOf, h]

/-- `get_super_block`. -/
def getSuperBlock (dev : Int) : FsM SuperBlock := do
  let s ← get
  match s.superOf dev with
  | some sb => pure sb
  | none => throw .panic

/-- The sector that holds the inode `nr`. -/
def inodeSector (sb : SuperBlock) (nr : Int) : Int :=
  (2 + sb.nrInodeMapSects + sb.nrSectMapSects +
    BitVec.ofInt 32 ((nr - 1).tdiv 16)).toInt

/-- Its offset there.  It is negative for some numbers that are. -/
def inodeOffset (nr : Int) : FsM Nat :=
  if 0 ≤ (nr - 1).tmod 16 then pure ((nr - 1).tmod 16 * 32).toNat
  else throw .fault

/-- The four fields of an inode that are on disk. -/
def putInodeFields (b : Nat → Byte) (o : Nat) (p : Inode) : Nat → Byte :=
  putWord (putWord (putWord (putWord b o p.fileType) (o + 4) p.fileSize)
    (o + 8) p.sectStart) (o + 12) p.nrSects

/-- `write_inode`. -/
def writeInode (i : Fin NR_INODE) : FsM Unit := do
  let s ← get
  let p := s.inodeTable i
  let sb ← getSuperBlock p.dev
  rdSects p.dev (inodeSector sb p.nr) 1
  let o ← inodeOffset p.nr
  setBuf fun b => putInodeFields b o p
  wrSects p.dev (inodeSector sb p.nr) 1

/-- `put_inode`. -/
def putInode (i : Fin NR_INODE) : FsM Unit := do
  let s ← get
  check (0 < (s.inodeTable i).cnt)
  modify fun s => s.updInode i fun p => { p with cnt := p.cnt - 1 }

/-- The entry of `inode_table` that holds the inode. -/
def Fs.cached (s : Fs) (dev nr : Int) : Option (Fin NR_INODE) :=
  (List.finRange NR_INODE).find? fun i =>
    (s.inodeTable i).cnt ≠ 0 ∧ (s.inodeTable i).dev = dev ∧
      (s.inodeTable i).nr = nr

/-- The first entry of `inode_table` that nobody uses. -/
def Fs.freeInode (s : Fs) : Option (Fin NR_INODE) :=
  (List.finRange NR_INODE).find? fun i => (s.inodeTable i).cnt = 0

/-- The entry `i` is filled from the disk. -/
def loadInode (dev nr : Int) (i : Fin NR_INODE) : FsM Unit := do
  modify fun s => s.updInode i fun p =>
    { p with dev := dev, nr := nr, cnt := 1 }
  let sb ← getSuperBlock dev
  rdSects dev (inodeSector sb nr) 1
  let o ← inodeOffset nr
  modify fun s => s.updInode i fun p => { p with
    fileType := word s.fsbuf o
    fileSize := word s.fsbuf (o + 4)
    sectStart := word s.fsbuf (o + 8)
    nrSects := word s.fsbuf (o + 12) }

/-- `get_file_inode`; `none` is the null pointer. -/
def getFileInode (dev nr : Int) : FsM (Option (Fin NR_INODE)) :=
  if nr = 0 then pure none
  else do
    let s ← get
    match s.cached dev nr with
    | some i => do
        modify fun s => s.updInode i fun p => { p with cnt := p.cnt + 1 }
        pure (some i)
    | none =>
        match s.freeInode with
        | none => throw .panic
        | some i => do
            loadInode dev nr i
            pure (some i)

/-! ## Inodes on disk -/

/-- The first byte of the entry of the inode `nr` in the inode array. -/
def entryByte (sb : SuperBlock) (nr : Int) : Nat :=
  512 * (inodeSector sb nr).toNat + ((nr - 1).tmod 16 * 32).toNat

/-- The bytes of an inode's fields. -/
def entryOf (p : Inode) (k : Nat) : Byte :=
  bytesOf (if k < 4 then p.fileType else if k < 8 then p.fileSize
    else if k < 12 then p.sectStart else p.nrSects) (k % 4)

/-- The fields of an inode are sixteen bytes. -/
theorem putInodeFields_eq (b : Nat → Byte) (o : Nat) (p : Inode) :
    putInodeFields b o p = put b o 16 (entryOf p) := by
  have h₁ : putWord b o p.fileType = put b o 4 (entryOf p) := by
    refine put_congr fun k hk => ?_
    rw [entryOf, if_pos hk, Nat.mod_eq_of_lt hk]
  have hnext : ∀ (n : Nat) (v : BitVec 32), n % 4 = 0 →
      (∀ k < 4, entryOf p (n + k) = bytesOf v k) →
      putWord (put b o n (entryOf p)) (o + n) v =
        put b o (n + 4) (entryOf p) := by
    intro n v _ hv
    rw [← put_put_append, putWord]
    exact put_congr fun k hk => (hv k hk).symm
  rw [putInodeFields, h₁, hnext 4 _ rfl, hnext 8 _ rfl, hnext 12 _ rfl]
  all_goals
    intro k hk
    rw [entryOf]
    congr 1
    · simp only [show ¬ 12 + k < 4 by omega, show ¬ 12 + k < 8 by omega,
        show ¬ 12 + k < 12 by omega, show ¬ 8 + k < 4 by omega,
        show ¬ 8 + k < 8 by omega, show 8 + k < 12 by omega,
        show ¬ 4 + k < 4 by omega, show 4 + k < 8 by omega, if_true,
        if_false]
    · omega

section Inodes

variable {s s' : Fs} {dev nr : Int} {i : Fin NR_INODE} {u : Unit}

/-- `get_super_block` finds the block of the device. -/
theorem run_getSuperBlock {sb : SuperBlock} :
    getSuperBlock dev s = .ok sb s' ↔ s.superOf dev = some sb ∧ s = s' := by
  simp only [getSuperBlock, run_bind, run_get]
  constructor
  · rintro ⟨_, _, ⟨rfl, rfl⟩, h⟩
    cases hsb : s.superOf dev with
    | none => rw [hsb] at h; cases h
    | some sb' => rw [hsb] at h; cases h; exact ⟨rfl, rfl⟩
  · rintro ⟨hsb, rfl⟩
    refine ⟨s, s, ⟨rfl, rfl⟩, ?_⟩
    rw [hsb]
    rfl

/-- Where an inode is in its sector. -/
theorem run_inodeOffset {o : Nat} : inodeOffset nr s = .ok o s' ↔
    0 ≤ (nr - 1).tmod 16 ∧ ((nr - 1).tmod 16 * 32).toNat = o ∧ s = s' := by
  unfold inodeOffset
  by_cases h : 0 ≤ (nr - 1).tmod 16
  · rw [if_pos h, run_pure]
    constructor
    · intro hr; cases hr; exact ⟨h, rfl, rfl⟩
    · rintro ⟨-, rfl, rfl⟩; rfl
  · rw [if_neg h]
    constructor
    · intro hr; cases hr
    · rintro ⟨hn, -⟩; exact absurd hn h

/-- The inode `nr` has a place on the disk. -/
structure Stored (sb : SuperBlock) (nr : Int) : Prop where
  sector : Addressed (inodeSector sb nr)
  offset : 0 ≤ (nr - 1).tmod 16

/-- The state after `write_inode`. -/
def Fs.written (s : Fs) (i : Fin NR_INODE) (sb : SuperBlock) : Fs :=
  let p := s.inodeTable i
  { s with
    disk := Function.update s.disk p.dev
      (put (s.disk p.dev) (entryByte sb p.nr) 16 (entryOf p))
    fsbuf := put (put s.fsbuf 0 512
        (drop (s.disk p.dev) (512 * (inodeSector sb p.nr).toNat)))
      ((p.nr - 1).tmod 16 * 32).toNat 16 (entryOf p)
    writes := s.writes ++ [(p.dev, (inodeSector sb p.nr).toNat, 1)] }

/-- What `write_inode` leaves on the device. -/
theorem written_disk (sb : SuperBlock) {p : Inode} (hp : s.inodeTable i = p) :
    (s.written i sb).disk p.dev =
      put (s.disk p.dev) (entryByte sb p.nr) 16 (entryOf p) := by
  subst hp
  exact Function.update_self ..

/-- **`write_inode`** changes the sixteen bytes of the inode's fields. -/
theorem run_writeInode : writeInode i s = .ok u s' ↔
    ∃ sb, s.superOf (s.inodeTable i).dev = some sb ∧
      Stored sb (s.inodeTable i).nr ∧ s' = s.written i sb := by
  have hblock : ∀ (nr : Int) (a : Nat) (f b g : Nat → Byte),
      0 ≤ (nr - 1).tmod 16 →
      put f a 512 (put (put b 0 512 (drop f a)) ((nr - 1).tmod 16 * 32).toNat
        16 g) = put f (a + ((nr - 1).tmod 16 * 32).toNat) 16 g := by
    intro nr a f b g h0
    have hlt : (nr - 1).tmod 16 < 16 := Int.tmod_lt_of_pos _ (by decide)
    exact put_block (by omega)
  simp only [writeInode, run_bind, run_get, run_getSuperBlock, run_rdSects,
    run_inodeOffset, run_setBuf, run_wrSects, putInodeFields_eq]
  constructor
  · rintro ⟨_, _, ⟨rfl, rfl⟩, sb, _, ⟨hsb, rfl⟩, _, _, ⟨hn, rfl⟩, o, _,
      ⟨h0, rfl, rfl⟩, _, _, rfl, -, rfl⟩
    refine ⟨sb, hsb, ⟨hn, h0⟩, ?_⟩
    simp only [Fs.written, Nat.mul_one, hblock _ _ _ _ _ h0, entryByte]
  · rintro ⟨sb, hsb, ⟨hn, h0⟩, rfl⟩
    refine ⟨s, s, ⟨rfl, rfl⟩, sb, s, ⟨hsb, rfl⟩, (), _, ⟨hn, rfl⟩, _, _,
      ⟨h0, rfl, rfl⟩, (), _, rfl, hn, ?_⟩
    simp only [Fs.written, Nat.mul_one, hblock _ _ _ _ _ h0, entryByte]

/-- The inode `nr` as it is on disk. -/
def diskInode (f : Nat → Byte) (sb : SuperBlock) (dev nr : Int) : Inode where
  fileType := word f (entryByte sb nr)
  fileSize := word f (entryByte sb nr + 4)
  sectStart := word f (entryByte sb nr + 8)
  nrSects := word f (entryByte sb nr + 12)
  dev := dev
  cnt := 1
  nr := nr

/-- **AN INODE IS LOADED** from the array. -/
theorem run_loadInode : loadInode dev nr i s = .ok u s' ↔
    ∃ sb, s.superOf dev = some sb ∧ Stored sb nr ∧
      s' = { s.updInode i fun _ => diskInode (s.disk dev) sb dev nr with
        fsbuf := put s.fsbuf 0 512
          (drop (s.disk dev) (512 * (inodeSector sb nr).toNat)) } := by
  have hword : ∀ (sb : SuperBlock) (o : Nat), 0 ≤ (nr - 1).tmod 16 → o ≤ 12 →
      word (put s.fsbuf 0 512
        (drop (s.disk dev) (512 * (inodeSector sb nr).toNat)))
          (((nr - 1).tmod 16 * 32).toNat + o) =
        word (s.disk dev) (entryByte sb nr + o) := by
    intro sb o h0 ho
    have hlt : (nr - 1).tmod 16 < 16 := Int.tmod_lt_of_pos _ (by decide)
    refine word_congr fun k hk => ?_
    rw [put_of_in (by omega), drop, entryByte]
    congr 1
    omega
  have hfill : ∀ sb, 0 ≤ (nr - 1).tmod 16 →
      (Fs.updInode { s.updInode i fun p =>
          { p with dev := dev, nr := nr, cnt := 1 } with
        fsbuf := put s.fsbuf 0 512
          (drop (s.disk dev) (512 * (inodeSector sb nr).toNat)) } i fun p =>
        { p with
          fileType := word (put s.fsbuf 0 512
            (drop (s.disk dev) (512 * (inodeSector sb nr).toNat)))
            ((nr - 1).tmod 16 * 32).toNat
          fileSize := word (put s.fsbuf 0 512
            (drop (s.disk dev) (512 * (inodeSector sb nr).toNat)))
            (((nr - 1).tmod 16 * 32).toNat + 4)
          sectStart := word (put s.fsbuf 0 512
            (drop (s.disk dev) (512 * (inodeSector sb nr).toNat)))
            (((nr - 1).tmod 16 * 32).toNat + 8)
          nrSects := word (put s.fsbuf 0 512
            (drop (s.disk dev) (512 * (inodeSector sb nr).toNat)))
            (((nr - 1).tmod 16 * 32).toNat + 12) }) =
      { s.updInode i fun _ => diskInode (s.disk dev) sb dev nr with
        fsbuf := put s.fsbuf 0 512
          (drop (s.disk dev) (512 * (inodeSector sb nr).toNat)) } := by
    intro sb h0
    have h₁ := hword sb 0 h0 (by omega)
    rw [Nat.add_zero, Nat.add_zero] at h₁
    rw [Fs.updInode, Fs.updInode, Fs.updInode, h₁, hword sb 4 h0 (by omega),
      hword sb 8 h0 (by omega), hword sb 12 h0 (by omega)]
    simp only [Function.update_self, Function.update_idem, diskInode]
  simp only [loadInode, run_bind, run_modify, run_getSuperBlock, run_rdSects,
    run_inodeOffset]
  constructor
  · rintro ⟨-, _, rfl, sb, _, ⟨hsb, rfl⟩, -, _, ⟨hn, rfl⟩, o, _, ⟨h0, rfl, rfl⟩,
      rfl⟩
    exact ⟨sb, hsb, ⟨hn, h0⟩, hfill sb h0⟩
  · rintro ⟨sb, hsb, ⟨hn, h0⟩, rfl⟩
    exact ⟨(), _, rfl, sb, _, ⟨hsb, rfl⟩, (), _, ⟨hn, rfl⟩, _, _,
      ⟨h0, rfl, rfl⟩, (hfill sb h0).symm⟩

/-- **`get_file_inode`** counts a use of a cached inode, or reads the inode
    into a free entry. -/
theorem run_getFileInode {p : Option (Fin NR_INODE)} (hnr : nr ≠ 0)
    (h : getFileInode dev nr s = .ok p s') : ∃ i, p = some i ∧
      ((s.cached dev nr = some i ∧
        s' = s.updInode i fun p => { p with cnt := p.cnt + 1 }) ∨
      (s.cached dev nr = none ∧ s.freeInode = some i ∧
        ∃ sb, s.superOf dev = some sb ∧ Stored sb nr ∧
          s' = { s.updInode i fun _ => diskInode (s.disk dev) sb dev nr with
            fsbuf := put s.fsbuf 0 512
              (drop (s.disk dev) (512 * (inodeSector sb nr).toNat)) })) := by
  rw [getFileInode, if_neg hnr, run_get_bind] at h
  cases hc : s.cached dev nr with
  | some i =>
      rw [hc] at h
      cases h
      exact ⟨i, rfl, Or.inl ⟨rfl, rfl⟩⟩
  | none =>
      rw [hc] at h
      cases hf : s.freeInode with
      | none => rw [hf] at h; cases h
      | some i =>
          rw [hf] at h
          obtain ⟨_, _, hload, h⟩ := run_bind.mp h
          cases h
          exact ⟨i, rfl, Or.inr ⟨rfl, rfl, run_loadInode.mp hload⟩⟩

end Inodes

end KosFs
