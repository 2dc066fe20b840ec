import Kos.ReadWriteProofs

/-! # The disk driver

    The way of a sector number from `RD_SECT` and `WR_SECT` to the registers of
    the disk, and the loop of `hd_read_write` (`device/hd.c`) that moves the
    sectors.

    * The position is a product of two `int`s and is widened with its sign:
      23 bits of the sector number get through (`programmed_lba`), and the
      address is right exactly for the small numbers and the ones that a sign
      extension makes right again (`sector_address_iff`);
    * the loop ends only where the bytes are whole sectors and the disk has a
      data phase for each of them (`hdLoop_done`); the count register has eight
      bits (`transfer_iff`). -/

namespace KosDisk

open FlatMemory (Byte)
open Overlay
open KosKernel (Halt assert bind_eq_ok)
open KosFs (FS_BUF_SIZE)
open KosReadWrite (Io bufAfter diskAfter)

/-! ## Partitions -/

/-- Of `hd.h`: the minor numbers. -/
def NR_MAX_MINOR_PRIM_PER_DRIVE : Nat := 5
def NR_MAX_MINOR_LOGI_PER_DRIVE : Nat := 64
def NR_MAX_MINOR_PRIM : Int := 9
def MINOR_NR_hd1a : Int := 0x10

/-- A partition: its first sector and how many it has. -/
structure PartInfo where
  startSect : BitVec 32
  sectCnt : BitVec 32

/-- `hd_info[0]`, the only one there is. -/
structure HdInfo where
  openCnt : Int
  primary : Fin NR_MAX_MINOR_PRIM_PER_DRIVE → PartInfo
  logical : Fin NR_MAX_MINOR_LOGI_PER_DRIVE → PartInfo

/-- `DRIVE_OF_DEV`. -/
def driveOfDev (minor : Int) : Int :=
  if minor ≤ NR_MAX_MINOR_PRIM then minor.tdiv 5
  else (minor - MINOR_NR_hd1a).tdiv 64

/-- An element of an array; there is nothing outside it. -/
def element {n : Nat} {α : Type} (a : Fin n → α) (i : Int) : Except Halt α :=
  if h : 0 ≤ i ∧ i.toNat < n then .ok (a ⟨i.toNat, h.2⟩) else .error .fault

/-- The partition of a minor number. -/
def partition (hd : HdInfo) (minor : Int) : Except Halt PartInfo :=
  if driveOfDev minor ≠ 0 then .error .fault
  else if minor < NR_MAX_MINOR_PRIM then element hd.primary minor
  else element hd.logical ((minor - MINOR_NR_hd1a).tmod 64)

/-! ## The message and the command -/

/-- The message of `rd_wr_sector` to the driver. -/
structure HdMessage where
  io : Io
  minor : Int
  position : BitVec 64
  cnt : Int

/-- `cmd_block_reg`. -/
structure CmdBlock where
  features : BitVec 8
  count : BitVec 8
  lbaLow : BitVec 8
  lbaMid : BitVec 8
  lbaHigh : BitVec 8
  device : BitVec 8
  command : BitVec 8

/-- `rd_wr_sector`; device numbers with the major number 3 go to the disk. -/
def rdWrSector (io : Io) (dev : BitVec 32) (pos : BitVec 64) (bytes : Int) :
    HdMessage where
  io := io
  minor := (dev &&& 0xFF).toInt
  position := pos
  cnt := bytes

/-- `RD_SECT` and `WR_SECT`: the product is an `int`, and it becomes a `u64`. -/
def sectMessage (io : Io) (dev : BitVec 32) (s : Int) : HdMessage :=
  rdWrSector io dev ((BitVec.ofInt 32 (s * 512)).signExtend 64) 512

/-- `MAKE_DEVICE_REG` in LBA mode. -/
def makeDeviceReg (drive : Int) (lbaHighest : BitVec 8) : BitVec 8 :=
  (1 : BitVec 8) <<< 6 ||| BitVec.ofInt 8 drive <<< 4 |||
    (lbaHighest &&& 0xF) ||| 0xA0

/-- The commands of the drive. -/
def ATA_READ : BitVec 8 := 0x20
def ATA_WRITE : BitVec 8 := 0x30

/-- The command `hd_read_write` sends.  `1 << 31` is a negative `int`, and a
    large `u64` in the comparison. -/
def hdCommand (hd : HdInfo) (p : HdMessage) : Except Halt CmdBlock := do
  let pos := p.position
  assert (pos >>> 9 < ((1 : BitVec 32) <<< 31).signExtend 64)
  assert (pos &&& 0x1FF = 0)
  let part ← partition hd p.minor
  let sectNr := (pos >>> 9).setWidth 32 + part.startSect
  pure {
    features := 0
    count := BitVec.ofInt 8 ((p.cnt + 511).tdiv 512)
    lbaLow := (sectNr &&& 0xFF).setWidth 8
    lbaMid := (sectNr >>> 8 &&& 0xFF).setWidth 8
    lbaHigh := (sectNr >>> 16 &&& 0xFF).setWidth 8
    device := makeDeviceReg (driveOfDev p.minor)
      ((sectNr >>> 24 &&& 0xF).setWidth 8)
    command := match p.io with
      | .read => ATA_READ
      | .write => ATA_WRITE }

/-- The address in the registers. -/
def lbaOf (c : CmdBlock) : Nat :=
  c.lbaLow.toNat + 256 * c.lbaMid.toNat + 65536 * c.lbaHigh.toNat +
    16777216 * (c.device &&& 0xF).toNat

/-! ## The registers -/

section Registers

variable {hd : HdInfo} {p : HdMessage} {c : CmdBlock} {part : PartInfo}

theorem byte_toNat (v : BitVec 32) (k : Nat) :
    ((v >>> k &&& 0xFF).setWidth 8).toNat = (v.toNat >>> k) % 256 := by
  rw [BitVec.toNat_setWidth, BitVec.toNat_and, BitVec.toNat_ushiftRight]
  have h := Nat.and_two_pow_sub_one_eq_mod (v.toNat >>> k) 8
  rw [show BitVec.toNat (0xFF : BitVec 32) = 2 ^ 8 - 1 from rfl, h]
  omega

theorem device_nibble :
    ∀ h : BitVec 8, makeDeviceReg 0 h &&& 0xF = h &&& 0xF := by decide

theorem nibble_toNat (v : BitVec 32) :
    ((makeDeviceReg 0 ((v >>> 24 &&& 0xF).setWidth 8)) &&& 0xF).toNat =
      (v.toNat >>> 24) % 16 := by
  have h := Nat.and_two_pow_sub_one_eq_mod
  rw [device_nibble, BitVec.toNat_and, BitVec.toNat_setWidth, BitVec.toNat_and,
    BitVec.toNat_ushiftRight,
    show BitVec.toNat (0xF : BitVec 32) = 2 ^ 4 - 1 from rfl,
    show BitVec.toNat (0xF : BitVec 8) = 2 ^ 4 - 1 from rfl, h, h]
  omega

/-- What the assertions ask for holds of whole sectors. -/
theorem hdCommand_ok (hpos : p.position.toNat % 512 = 0)
    (hpart : partition hd p.minor = .ok part) :
    ∃ c, hdCommand hd p = .ok c ∧
      c.count = BitVec.ofInt 8 ((p.cnt + 511).tdiv 512) ∧
      lbaOf c =
        (p.position.toNat / 512 + part.startSect.toNat) % 268435456 := by
  have hlt : p.position >>> 9 < ((1 : BitVec 32) <<< 31).signExtend 64 := by
    rw [BitVec.lt_def, BitVec.toNat_ushiftRight, Nat.shiftRight_eq_div_pow]
    have hp := p.position.isLt
    have hbound : (((1 : BitVec 32) <<< 31).signExtend 64).toNat =
        18446744071562067968 := by decide
    omega
  have hwhole : p.position &&& 0x1FF = 0 := by
    apply BitVec.eq_of_toNat_eq
    rw [BitVec.toNat_and,
      show BitVec.toNat (0x1FF : BitVec 64) = 2 ^ 9 - 1 from rfl,
      Nat.and_two_pow_sub_one_eq_mod]
    exact hpos
  have hdrive : driveOfDev p.minor = 0 := by
    by_contra hne
    rw [partition, if_pos hne] at hpart
    cases hpart
  have h₁ : assert (p.position >>> 9 < ((1 : BitVec 32) <<< 31).signExtend 64) =
      .ok () := KosKernel.assert_eq_ok.mpr hlt
  have h₂ : assert (p.position &&& 0x1FF = 0) = .ok () :=
    KosKernel.assert_eq_ok.mpr hwhole
  obtain ⟨v, hv⟩ : ∃ v, v = (p.position >>> 9).setWidth 32 + part.startSect :=
    ⟨_, rfl⟩
  have hnat : v.toNat =
      (p.position.toNat / 512 + part.startSect.toNat) % 4294967296 := by
    rw [hv, BitVec.toNat_add, BitVec.toNat_setWidth, BitVec.toNat_ushiftRight,
      Nat.shiftRight_eq_div_pow]
    omega
  have hlow := byte_toNat v 0
  have hmid := byte_toNat v 8
  have hhigh := byte_toNat v 16
  have hhighest := nibble_toNat v
  rw [BitVec.ushiftRight_zero, Nat.shiftRight_zero] at hlow
  rw [Nat.shiftRight_eq_div_pow] at hmid hhigh hhighest
  rw [hdCommand, h₁, h₂, hpart]
  refine ⟨_, rfl, rfl, ?_⟩
  dsimp only [lbaOf]
  rw [← hv, hdrive, hlow, hmid, hhigh, hhighest]
  omega

/-- The position of a sector, as the driver gets it. -/
theorem position_toNat (s : Int) :
    (((BitVec.ofInt 32 (s * 512)).signExtend 64).toNat : Int) =
      if s % 8388608 < 4194304 then s % 8388608 * 512
      else 18446744073709551616 - (8388608 - s % 8388608) * 512 := by
  have hint : (BitVec.ofInt 32 (s * 512)).toInt =
      if s % 8388608 < 4194304 then s % 8388608 * 512
      else (s % 8388608 - 8388608) * 512 := by
    rw [BitVec.toInt_ofInt, Int.bmod_def]
    omega
  rw [BitVec.signExtend, BitVec.toNat_ofInt, hint]
  omega

end Registers

/-! ## The address of a sector -/

section Address

variable {hd : HdInfo} {io : Io} {dev : BitVec 32} {part : PartInfo} {s : Int}

/-- The minor numbers with a partition are those of the first disk. -/
theorem partition_iff {m : Int} (h0 : 0 ≤ m) :
    (∃ part, partition hd m = .ok part) ↔ m < 5 ∨ 16 ≤ m ∧ m < 80 := by
  have helem : ∀ {n : Nat} {a : Fin n → PartInfo} {i : Int},
      (∃ part, element a i = .ok part) ↔ 0 ≤ i ∧ i < n := by
    intro n a i
    rw [element]
    by_cases h : 0 ≤ i ∧ i.toNat < n
    · rw [dif_pos h]
      exact iff_of_true ⟨_, rfl⟩ (by omega)
    · rw [dif_neg h]
      refine iff_of_false ?_ (by omega)
      rintro ⟨_, hno⟩
      cases hno
  have hdiv : (m - 16).tdiv 64 =
      if m < 16 then -((16 - m) / 64) else (m - 16) / 64 := by
    split
    · rw [← Int.neg_sub, Int.neg_tdiv, Int.tdiv_eq_ediv_of_nonneg (by omega)]
    · exact Int.tdiv_eq_ediv_of_nonneg (by omega)
  have hmod : (m - 16).tmod 64 =
      if m < 16 then -((16 - m) % 64) else (m - 16) % 64 := by
    split
    · rw [← Int.neg_sub, Int.neg_tmod, Int.tmod_eq_emod_of_nonneg (by omega)]
    · exact Int.tmod_eq_emod_of_nonneg (by omega)
  rw [partition, driveOfDev, MINOR_NR_hd1a, NR_MAX_MINOR_PRIM, hdiv, hmod,
    Int.tdiv_eq_ediv_of_nonneg h0]
  by_cases hdrive : (if m ≤ 9 then m / 5
      else if m < 16 then -((16 - m) / 64) else (m - 16) / 64) = 0
  · rw [if_neg (fun h => h hdrive)]
    split
    · rw [helem, NR_MAX_MINOR_PRIM_PER_DRIVE]
      omega
    · rw [helem, NR_MAX_MINOR_LOGI_PER_DRIVE]
      omega
  · rw [if_pos hdrive]
    refine iff_of_false ?_ (by omega)
    rintro ⟨_, hno⟩
    cases hno

variable (io s) in
/-- **THE ADDRESS** in the registers: 23 bits of the sector number get through,
    with their sign. -/
theorem programmed_lba (hpart : partition hd (dev &&& 0xFF).toInt = .ok part) :
    ∃ c, hdCommand hd (sectMessage io dev s) = .ok c ∧
      (lbaOf c : Int) =
        (part.startSect.toNat + (if s % 8388608 < 4194304 then s % 8388608
          else s % 8388608 - 8388608)) % 268435456 := by
  have hpos := position_toNat s
  obtain ⟨pos, hp⟩ : ∃ pos, pos = (BitVec.ofInt 32 (s * 512)).signExtend 64 :=
    ⟨_, rfl⟩
  rw [← hp] at hpos
  have hwhole : (sectMessage io dev s).position.toNat % 512 = 0 := by
    rw [sectMessage, rdWrSector, ← hp]
    dsimp only
    split at hpos <;> omega
  obtain ⟨c, hc, -, hlba⟩ := hdCommand_ok hwhole hpart
  refine ⟨c, hc, ?_⟩
  rw [hlba, sectMessage, rdWrSector, ← hp]
  dsimp only
  split at hpos <;> omega

/-- **SECTOR ADDRESSING**: the sector that is programmed is the one that was
    asked for exactly when its number has 22 bits or is among the last 2 ^ 22
    that the registers hold. -/
theorem sector_address_iff
    (hpart : partition hd (dev &&& 0xFF).toInt = .ok part)
    (h0 : 0 ≤ s) (hs : part.startSect.toNat + s < 268435456) :
    (∃ c, hdCommand hd (sectMessage io dev s) = .ok c ∧
      (lbaOf c : Int) = part.startSect.toNat + s) ↔
    s < 4194304 ∨ 264241152 ≤ s := by
  obtain ⟨c, hc, hlba⟩ := programmed_lba io s hpart
  constructor
  · rintro ⟨c', hc', heq⟩
    cases hc.symm.trans hc'
    rw [hlba] at heq
    split at heq <;> omega
  · intro hcond
    refine ⟨c, hc, ?_⟩
    rw [hlba]
    split <;> omega

end Address

/-- Two partitions: the whole disk, and the one that is the root device. -/
def demoHd : HdInfo where
  openCnt := 1
  primary := fun _ => ⟨0, 0x800000⟩
  logical := fun _ => ⟨0x800, 0x7FF800⟩

theorem demo_partition : partition demoHd ((0x320 : BitVec 32) &&& 0xFF).toInt =
    .ok ⟨0x800, 0x7FF800⟩ := rfl

theorem sector_address_iff_first :
    ∃ c, hdCommand demoHd (sectMessage .read 0x320 1) = .ok c ∧
      (lbaOf c : Int) = 0x801 :=
  (sector_address_iff demo_partition (by decide) (by decide)).mpr
    (Or.inl (by decide))

/-- Two gigabytes into a partition the position is negative. -/
theorem sector_address_wraps :
    ¬ ∀ (hd : HdInfo) (io : Io) (dev : BitVec 32) (part : PartInfo) (s : Int),
      partition hd (dev &&& 0xFF).toInt = .ok part → 0 ≤ s →
      part.startSect.toNat + s < 268435456 →
      ∃ c, hdCommand hd (sectMessage io dev s) = .ok c ∧
        (lbaOf c : Int) = part.startSect.toNat + s := by
  intro hall
  obtain ⟨c, hc, hlba⟩ := hall demoHd .read 0x320 _ 4194304 demo_partition
    (by decide) (by decide)
  obtain ⟨c', hc', hlba'⟩ := programmed_lba .read 4194304 demo_partition
  cases hc.symm.trans hc'
  rw [hlba] at hlba'
  exact absurd hlba' (by decide)

/-! ## The transfer -/

/-- What a transfer works on: the caller's memory from BUF on, the disk from the
    programmed sector on, and what was done so far. -/
structure Hd where
  buf : Nat → Byte
  medium : Nat → Byte
  rounds : Nat
  moved : Nat

/-- How the loop ends: at `bytes_left == 0`, or in the wait for an interrupt
    that does not come, or with a panic, because the disk asks for no data, or
    in a copy of a negative size. -/
inductive HdEnd where
  | done (h : Hd)
  | waits (h : Hd)
  | panic (h : Hd)
  | fault (h : Hd)

/-- One round moves some bytes of a sector. -/
def hdRound (io : Io) (bytes : Nat) (h : Hd) : Hd where
  buf := bufAfter io h.buf (512 * h.rounds) bytes
    (drop h.medium (512 * h.rounds))
  medium := diskAfter io h.medium (512 * h.rounds) bytes
    (drop h.buf (512 * h.rounds))
  rounds := h.rounds + 1
  moved := h.moved + bytes

/-- A round for which the disk has no data phase. -/
def noPhase (io : Io) (h : Hd) : HdEnd :=
  match io with
  | .read => .waits h
  | .write => .panic h

/-- The loop, with the data phases the disk has left.  A sector that is not
    written to its end raises no interrupt. -/
def hdLoop (io : Io) : Nat → Int → Hd → HdEnd
  | 0, left, h => if left = 0 then .done h else noPhase io h
  | phases + 1, left, h =>
      if left = 0 then .done h
      else if left < 0 then .fault h
      else if io = .write ∧ left < 512 then .waits (hdRound io left.toNat h)
      else hdLoop io phases (left - 512) (hdRound io (min 512 left).toNat h)

/-- The sectors of a count register, 0 for 256. -/
def sectorsOf (count : BitVec 8) : Nat := if count = 0 then 256 else count.toNat

/-- `hd_read_write`: the command, and the loop against a disk that has a data
    phase for each sector of the command. -/
def hdReadWrite (hd : HdInfo) (p : HdMessage) (buf medium : Nat → Byte) :
    Except Halt (CmdBlock × HdEnd) := do
  let c ← hdCommand hd p
  pure (c, hdLoop p.io (sectorsOf c.count) p.cnt ⟨buf, medium, 0, 0⟩)

section Transfer

variable {io : Io} {phases m n : Nat} {left : Int} {h h' : Hd}

/-- The state after `m` whole sectors. -/
def after (io : Io) (h : Hd) (m : Nat) : Hd where
  buf := bufAfter io h.buf (512 * h.rounds) (512 * m)
    (drop h.medium (512 * h.rounds))
  medium := diskAfter io h.medium (512 * h.rounds) (512 * m)
    (drop h.buf (512 * h.rounds))
  rounds := h.rounds + m
  moved := h.moved + 512 * m

theorem after_zero (h : Hd) : after io h 0 = h := by
  cases h
  cases io <;>
    simp only [after, bufAfter, diskAfter, Nat.mul_zero, put_zero, Nat.add_zero]

theorem after_start (io : Io) (buf medium : Nat → Byte) (m : Nat) :
    after io ⟨buf, medium, 0, 0⟩ m = ⟨bufAfter io buf 0 (512 * m) medium,
      diskAfter io medium 0 (512 * m) buf, m, 512 * m⟩ := by
  simp only [after, Nat.mul_zero, drop_zero, Nat.zero_add]

/-- A sector more. -/
theorem after_round (h : Hd) (m : Nat) :
    after io (hdRound io 512 h) m = after io h (m + 1) := by
  have hput : ∀ f g : Nat → Byte, put (put f (512 * h.rounds) 512
      (drop g (512 * h.rounds))) (512 * (h.rounds + 1)) (512 * m)
        (drop g (512 * (h.rounds + 1))) =
      put f (512 * h.rounds) (512 * (m + 1)) (drop g (512 * h.rounds)) := by
    intro f g
    rw [Nat.mul_succ, ← drop_drop, put_put_append, Nat.mul_succ,
      Nat.add_comm 512]
  have hmoved : h.moved + 512 + 512 * m = h.moved + 512 * (m + 1) := by omega
  have hrounds : h.rounds + 1 + m = h.rounds + (m + 1) := by omega
  cases io <;>
    simp only [after, hdRound, bufAfter, diskAfter, hput, hmoved, hrounds]

/-- **WHOLE SECTORS** with enough data phases are moved. -/
theorem hdLoop_whole : ∀ {phases m : Nat} {h : Hd}, m ≤ phases →
    hdLoop io phases (512 * m : Nat) h = .done (after io h m) := by
  intro phases
  induction phases with
  | zero =>
      intro m h hm
      obtain rfl : m = 0 := by omega
      rw [hdLoop, if_pos (by omega), after_zero]
  | succ phases ih =>
      intro m h hm
      rw [hdLoop]
      cases m with
      | zero => rw [if_pos (by omega), after_zero]
      | succ m =>
          rw [if_neg (by omega), if_neg (by omega), if_neg (by omega),
            show ((512 * (m + 1) : Nat) : Int) - 512 = (512 * m : Nat) by omega,
            show (min 512 ((512 * (m + 1) : Nat) : Int)).toNat = 512 by omega,
            ih (by omega), after_round]

/-- **THE LOOP ENDS** with whole sectors only. -/
theorem hdLoop_done : ∀ {phases : Nat} {left : Int} {h : Hd},
    hdLoop io phases left h = .done h' →
    ∃ m : Nat, m ≤ phases ∧ left = (512 * m : Nat) := by
  intro phases
  induction phases with
  | zero =>
      intro left h hrun
      rw [hdLoop] at hrun
      split at hrun
      · exact ⟨0, Nat.le_refl _, by omega⟩
      · cases io <;> cases hrun
  | succ phases ih =>
      intro left h hrun
      rw [hdLoop] at hrun
      split at hrun
      · exact ⟨0, Nat.zero_le _, by omega⟩
      · split at hrun
        · cases hrun
        · split at hrun
          · cases hrun
          · obtain ⟨m, hm, hleft⟩ := ih hrun
            exact ⟨m + 1, by omega, by omega⟩

end Transfer

/-- A transfer as it should be: it ends after the sectors that hold the
    bytes, all bytes and no others have moved, and the command is for as many
    sectors. -/
def TransferSpec (p : HdMessage) (buf medium : Nat → Byte) (c : CmdBlock)
    (e : HdEnd) : Prop :=
  ∃ h : Hd, e = .done h ∧ h.rounds = (p.cnt.toNat + 511) / 512 ∧
    h.moved = p.cnt.toNat ∧ h.buf = bufAfter p.io buf 0 p.cnt.toNat medium ∧
    h.medium = diskAfter p.io medium 0 p.cnt.toNat buf ∧
    sectorsOf c.count = h.rounds

section Sectors

variable {hd : HdInfo} {p : HdMessage} {buf medium : Nat → Byte} {c : CmdBlock}
  {e : HdEnd} {m : Nat}

/-- The count register has the low bits of the number of sectors. -/
theorem hdCommand_count (h : hdCommand hd p = .ok c) :
    c.count = BitVec.ofInt 8 ((p.cnt + 511).tdiv 512) := by
  obtain ⟨_, -, h⟩ := bind_eq_ok.mp h
  obtain ⟨_, -, h⟩ := bind_eq_ok.mp h
  obtain ⟨part, -, h⟩ := bind_eq_ok.mp h
  cases h
  rfl

theorem sectorsOf_count (m : Nat) :
    sectorsOf (BitVec.ofInt 8 m) = if m % 256 = 0 then 256 else m % 256 := by
  have hnat : (BitVec.ofInt 8 m).toNat = m % 256 := by
    rw [BitVec.toNat_ofInt]
    omega
  rw [sectorsOf]
  by_cases hz : m % 256 = 0
  · rw [if_pos hz, if_pos]
    apply BitVec.eq_of_toNat_eq
    rw [hnat, hz]
    rfl
  · rw [if_neg hz, if_neg, hnat]
    intro heq
    rw [heq] at hnat
    exact hz hnat.symm

/-- **A TRANSFER** does what it programs exactly when it is of whole sectors, of
    at least one, and of no more than 256. -/
theorem transfer_iff (h0 : 0 ≤ p.cnt) (hmax : p.cnt ≤ FS_BUF_SIZE)
    (hrun : hdReadWrite hd p buf medium = .ok (c, e)) :
    TransferSpec p buf medium c e ↔
      p.cnt % 512 = 0 ∧ 512 ≤ p.cnt ∧ p.cnt ≤ 131072 := by
  rw [show ((FS_BUF_SIZE : Nat) : Int) = 1048576 from rfl] at hmax
  obtain ⟨c', hc, hrun⟩ := bind_eq_ok.mp hrun
  cases hrun
  have hcount : sectorsOf c.count =
      if (p.cnt.toNat + 511) / 512 % 256 = 0 then 256
      else (p.cnt.toNat + 511) / 512 % 256 := by
    rw [hdCommand_count hc, Int.tdiv_eq_ediv_of_nonneg (by omega),
      ← sectorsOf_count]
    congr 2
    omega
  constructor
  · rintro ⟨h, hend, hrounds, -, -, -, hsects⟩
    obtain ⟨m, hm, hcnt⟩ := hdLoop_done hend
    rw [hrounds, hcount] at hsects
    split at hsects <;> omega
  · rintro ⟨hwhole, hlow, hhigh⟩
    obtain ⟨m, hm⟩ : ∃ m : Nat, p.cnt = (512 * m : Nat) :=
      ⟨(p.cnt / 512).toNat, by omega⟩
    have hsects : sectorsOf c.count = m := by
      rw [hcount]
      split <;> omega
    have hnat : p.cnt.toNat = 512 * m := by omega
    refine ⟨⟨bufAfter p.io buf 0 (512 * m) medium,
      diskAfter p.io medium 0 (512 * m) buf, m, 512 * m⟩,
      ?_, ?_, hnat.symm, ?_, ?_, hsects⟩
    · rw [hm, hsects, hdLoop_whole (Nat.le_refl _), after_start]
    · show m = _
      omega
    · rw [hnat]
    · rw [hnat]

end Sectors

/-- A read from the first logical partition. -/
def demoMessage (cnt : Int) : HdMessage where
  io := .read
  minor := 0x20
  position := 0
  cnt := cnt

/-- A message to the driver is served. -/
theorem demo_run (cnt : Int) (buf medium : Nat → Byte) :
    ∃ c e, hdReadWrite demoHd (demoMessage cnt) buf medium = .ok (c, e) := by
  have hpart : partition demoHd (demoMessage cnt).minor =
      .ok ⟨0x800, 0x7FF800⟩ := rfl
  have hpos : (demoMessage cnt).position.toNat % 512 = 0 := rfl
  obtain ⟨c, hc, -⟩ := hdCommand_ok hpos hpart
  exact ⟨c, _, bind_eq_ok.mpr ⟨c, hc, rfl⟩⟩

/-- 256 sectors are the most. -/
theorem transfer_iff_largest : ∃ c e,
    hdReadWrite demoHd (demoMessage 131072) (fun _ => 0) (fun _ => 0xFF) =
        .ok (c, e) ∧
      TransferSpec (demoMessage 131072) (fun _ => 0) (fun _ => 0xFF) c e := by
  obtain ⟨c, e, hrun⟩ := demo_run 131072 (fun _ => 0) fun _ => 0xFF
  exact ⟨c, e, hrun, (transfer_iff (by decide) (by decide) hrun).mpr
    ⟨by decide, by decide, by decide⟩⟩

/-- A read of 2048 sectors, the largest chunk of the file system, is programmed
    as one of 256 and waits for the others. -/
theorem transfer_too_long :
    ¬ ∀ (hd : HdInfo) (p : HdMessage) (buf medium : Nat → Byte) (c : CmdBlock)
      (e : HdEnd), 0 ≤ p.cnt → p.cnt ≤ FS_BUF_SIZE →
      hdReadWrite hd p buf medium = .ok (c, e) →
      TransferSpec p buf medium c e := by
  intro hall
  obtain ⟨c, e, hrun⟩ := demo_run 1048576 (fun _ => 0) fun _ => 0xFF
  obtain ⟨h, -, hrounds, -, -, -, hsects⟩ := hall _ _ _ _ c e (by decide)
    (by decide) hrun
  obtain ⟨c', hc, hpair⟩ := bind_eq_ok.mp hrun
  cases hpair
  rw [hrounds, hdCommand_count hc] at hsects
  exact absurd hsects (by decide)

end KosDisk
