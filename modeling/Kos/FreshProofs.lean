import Kos.InitFsProofs
import Kos.InodeArrayProofs
import Kos.TablesProofs

/-! # A new file system

    What `init_fs` leaves on a disk that had no file system: the sectors that
    `mkfs` writes one after the other do not run into each other, with one
    exception.  On a partition of more than 80 gigabytes the bits of `cmd.tar`
    have negative numbers, and may be written over the super block; then
    `init_fs` does not accept its own work.

    * `Fresh` are the states after `init_fs` has made a file system;
    * in all of them the root inode is in the table and nothing else
      (`fresh_tables`). -/

namespace KosFresh

open FlatMemory (Byte)
open Overlay
open BitMap (bit Marks marks_one bit_byte)
open FrameRule
open KosFs
open KosMkfs
open KosInodeArray
open KosInitFs
open KosTables

/-- `init_fs` has found no file system and made one. -/
def Fresh (s : Fs) : Prop :=
  ∃ sectCnt s₀, word (s₀.disk ROOT_DEV_NR) 512 ≠ MAGIC_V1 ∧
    initFs sectCnt s₀ = .ok () s

/-! ## Sectors that are not written -/

/-- The sector `n` of the root device is as it was. -/
def SameSector (n : Nat) (s t : Fs) : Prop :=
  ∀ y, 512 * n ≤ y → y < 512 * n + 512 →
    t.disk ROOT_DEV_NR y = s.disk ROOT_DEV_NR y

instance (n : Nat) : IsPreorder Fs (SameSector n) where
  refl _ := fun _ _ _ => rfl
  trans _ _ _ h₁ h₂ := fun y hy hy' => (h₂ y hy hy').trans (h₁ y hy hy')

section Sector

variable {n : Nat} {s t : Fs} {m : Int}

/-- `fsbuf` is not on the disk. -/
theorem sector_setBuf (f : (Nat → Byte) → Nat → Byte) :
    Keeps (SameSector n) (setBuf f) := by
  intro s a t h
  obtain rfl := run_setBuf.mp h
  exact refl_of (SameSector n) _

/-- Reading leaves every sector. -/
theorem sector_rdSects (dev m : Int) (count : Nat) :
    Keeps (SameSector n) (rdSects dev m count) := by
  intro s a t h
  obtain ⟨-, rfl⟩ := run_rdSects.mp h
  exact refl_of (SameSector n) _

/-- Writing one sector leaves the others. -/
theorem sector_wrSects (h : m ≠ n) :
    Keeps (SameSector n) (wrSects ROOT_DEV_NR m 1) := by
  intro s a t hrun y hy hy'
  obtain ⟨haddr, rfl⟩ := run_wrSects.mp hrun
  have hne := haddr.1
  show Function.update s.disk ROOT_DEV_NR (put _ _ _ _) ROOT_DEV_NR y = _
  rw [Function.update_self, put_of_out (by omega)]

/-- A bit set in `fsbuf` is not on the disk. -/
theorem sector_orBit (j k : Nat) : Keeps (SameSector n) (orBit j k) :=
  sector_setBuf _

end Sector

section Made

variable {sb : SuperBlock} {s t : Fs} {u : Unit}

/-- The sectors of the map are where they should be. -/
theorem mapSect_made (hm : Made sb) {i : Nat} (h : i < 1073741824) :
    mapSect sb i = ((3 + i : Nat) : Int) := by
  have h3 : ((2 : BitVec 32) + 1).toNat = 3 := by decide
  have hnat : (2 + 1 + BitVec.ofNat 32 i).toNat = 3 + i := by
    rw [BitVec.toNat_add, BitVec.toNat_ofNat, h3]
    omega
  rw [mapSect, hm.imap, BitVec.ofInt_natCast, BitVec.toInt_eq_toNat_of_lt, hnat]
  rw [hnat]
  omega

/-- The inode map is not sector 1. -/
theorem sector_createInodeMap : Keeps (SameSector 1) createInodeMap := by
  refine keeps_bind (sector_setBuf _) fun _ => ?_
  refine keeps_bind (keeps_forM fun k _ => sector_orBit 0 k) fun _ => ?_
  refine keeps_get fun s => keeps_bind ?_ fun _ => sector_wrSects (by decide)
  exact keeps_ite (fun _ => keeps_pure _) fun _ => keeps_throw _

/-- Nor is the sector map. -/
theorem sector_createSectorMap (hm : Made sb) :
    Keeps (SameSector 1) (createSectorMap sb) := by
  have hsect : ∀ i : Nat, i < 1073741824 → mapSect sb i ≠ (1 : Nat) := by
    intro i hi
    rw [mapSect_made hm hi]
    omega
  refine keeps_bind (sector_setBuf _) fun _ => ?_
  refine keeps_bind (keeps_forM fun _ _ => sector_setBuf _) fun _ => ?_
  refine keeps_bind (keeps_forM fun _ _ => sector_orBit _ _) fun _ => ?_
  refine keeps_bind (sector_wrSects (hsect 0 (by omega))) fun _ => ?_
  refine keeps_bind (sector_setBuf _) fun _ => keeps_forM fun i hi => ?_
  have hsmap := hm.smap
  have hlt := List.mem_range.mp hi
  exact sector_wrSects (hsect (i + 1) (by omega))

/-- The bits of `cmd.tar` go into sectors of the map from `cur` on. -/
theorem tarBits_sector (hm : Made sb) : ∀ {left cur : Nat} {off : Int}
    {s t : Fs} {c : Int}, cur + left < 1073741823 →
    tarBits sb left off cur s = .ok c t →
    SameSector 1 s t ∧ 0 ≤ c ∧ c ≤ (cur + left : Nat) := by
  intro left
  induction left with
  | zero =>
      intro cur off s t c _ h
      cases h
      exact ⟨refl_of (SameSector 1) s, by omega, by omega⟩
  | succ left ih =>
      intro cur off s t c hcur h
      rw [tarBits] at h
      split at h
      · cases h
      · obtain ⟨_, s₁, hor, h⟩ := run_bind.mp h
        have h₁ := sector_orBit (n := 1) _ _ _ _ _ hor
        split at h
        · obtain ⟨_, s₂, hwr, h⟩ := run_bind.mp h
          obtain ⟨_, s₃, hrd, h⟩ := run_bind.mp h
          have hsect : mapSect sb cur ≠ (1 : Nat) := by
            rw [mapSect_made hm (by omega)]
            omega
          have h₂ := sector_wrSects hsect _ _ _ hwr
          have h₃ := sector_rdSects (n := 1) _ _ _ _ _ _ hrd
          rw [show (cur : Int) + 1 = (cur + 1 : Nat) by omega] at h
          obtain ⟨h₄, h0, hle⟩ := ih (by omega) h
          exact ⟨trans_of (SameSector 1) h₁ (trans_of (SameSector 1) h₂
            (trans_of (SameSector 1) h₃ h₄)), h0, by omega⟩
        · obtain ⟨h₂, h0, hle⟩ := ih (by omega) h
          exact ⟨trans_of (SameSector 1) h₁ h₂, h0, by omega⟩

/-- Inside a sector of the map they are set in the buffer. -/
theorem tarBits_inside : ∀ {left off : Nat} {cur : Int} {s t : Fs} {c : Int},
    off + left < 4096 → tarBits sb left off cur s = .ok c t →
    c = cur ∧ t.disk = s.disk ∧
      ∀ y, bit s.fsbuf y = true ∨ off ≤ y ∧ y < off + left →
        bit t.fsbuf y = true := by
  intro left
  induction left with
  | zero =>
      intro off cur s t c _ h
      cases h
      refine ⟨rfl, rfl, fun y hy => hy.resolve_right ?_⟩
      omega
  | succ left ih =>
      intro off cur s t c hoff h
      rw [tarBits, if_neg (by omega)] at h
      obtain ⟨_, s₁, hor, h⟩ := run_bind.mp h
      obtain rfl := run_setBuf.mp hor
      rw [if_neg (by omega), show (off : Int) + 1 = (off + 1 : Nat) by omega]
        at h
      obtain ⟨hc, hdisk, hbits⟩ := ih (by omega) h
      refine ⟨hc, hdisk, fun y hy => hbits y ?_⟩
      have hmark := marks_one (f := s.fsbuf) (j := off / 8)
        (show off % 8 < 8 by omega) y
      by_cases hnext : off + 1 ≤ y ∧ y < off + 1 + left
      · exact Or.inr hnext
      · left
        rw [Int.toNat_natCast, hmark]
        rcases hy with hset | hrange
        · rw [hset, Bool.true_or]
        · rw [decide_eq_true (by omega), Bool.or_true]

/-- The bits of `cmd.tar` are put into the sector map, or into the magic number
    of the super block. -/
theorem sector_createCmdDotTar (hm : Made sb)
    (h : createCmdDotTar sb s = .ok u t) :
    SameSector 1 s t ∨ bit (t.disk ROOT_DEV_NR) (8 * 512 + 1) = true := by
  obtain ⟨B, hB⟩ : ∃ B, B = (INSTALL_START_SECT - sb.nr1stDataSect + 1).toInt :=
    ⟨_, rfl⟩
  rw [createCmdDotTar, ← hB] at h
  obtain ⟨_, _, hcheck, h⟩ := run_bind.mp h
  obtain ⟨-, rfl⟩ := run_check.mp hcheck
  obtain ⟨_, s₁, hrd, h⟩ := run_bind.mp h
  obtain ⟨c, s₂, hbits, hwr⟩ := run_bind.mp h
  have h₁ := sector_rdSects (n := 1) _ _ _ _ _ _ hrd
  have hn : INSTALL_NR_SECTS.toNat = 2048 := by decide
  rw [hn] at hbits
  rcases Int.lt_or_le B 0 with hneg | hpos
  · -- the first of the bits is the first of its sector, or has no byte
    have hzero : B.tmod 4096 = (0 : Nat) := by
      have hle : B.tmod 4096 ≤ 0 := by
        rw [← Int.neg_neg B, Int.neg_tmod,
          Int.tmod_eq_emod_of_nonneg (by omega)]
        omega
      rcases Int.lt_or_eq_of_le hle with hlt | heq
      · rw [tarBits, if_pos hlt] at hbits
        cases hbits
      · exact heq
    rw [hzero] at hbits
    obtain ⟨rfl, hdisk, hset⟩ := tarBits_inside (by omega) hbits
    by_cases hsect : mapSect sb (B.tdiv 4096) = (1 : Nat)
    · right
      obtain ⟨-, rfl⟩ := run_wrSects.mp hwr
      show bit (Function.update s₂.disk ROOT_DEV_NR (put _ _ _ _)
        ROOT_DEV_NR) _ = true
      rw [hsect, Function.update_self, bit, put_of_in (by omega)]
      exact hset 1 (Or.inr (by omega))
    · left
      refine trans_of (SameSector 1) h₁ (trans_of (SameSector 1) ?_
        (sector_wrSects hsect _ _ _ hwr))
      intro y _ _
      rw [hdisk]
  · left
    have hsmall : B < 2147483648 := by
      rw [hB]
      exact BitVec.toInt_lt
    have hcur : B.tdiv 4096 = (B.toNat / 4096 : Nat) := by
      rw [Int.tdiv_eq_ediv_of_nonneg hpos]
      omega
    rw [hcur] at hbits
    obtain ⟨h₂, h0, hle⟩ := tarBits_sector hm (by omega) hbits
    obtain ⟨k, rfl⟩ := Int.eq_ofNat_of_zero_le h0
    have hsect : mapSect sb (k : Nat) ≠ (1 : Nat) := by
      rw [mapSect_made hm (by omega)]
      omega
    exact trans_of (SameSector 1) h₁ (trans_of (SameSector 1) h₂
      (sector_wrSects hsect _ _ _ hwr))

/-- Storing into the buffer time and again. -/
theorem forM_setBuf {α : Type} (f : α → (Nat → Byte) → Nat → Byte)
    (l : List α) (s : Fs) : l.forM (fun a => setBuf (f a)) s =
      .ok () { s with fsbuf := l.foldl (fun b a => f a b) s.fsbuf } := by
  induction l generalizing s with
  | nil => rfl
  | cons a l ih => exact ih _

/-- The sector of the inode array begins with the root inode. -/
theorem createInodeArray_root (hm : Made sb)
    (h : createInodeArray sb s = .ok u t) : SameSector 1 s t ∧
      diskInode (t.disk ROOT_DEV_NR) sb ROOT_DEV_NR ROOT_INODE_NR =
        rootInodeOf sb := by
  have hsect : (2 + sb.nrInodeMapSects + sb.nrSectMapSects).toInt =
      (3 + sb.nrSectMapSects.toNat : Nat) := by
    have hsmap := hm.smap
    have h3 : ((2 : BitVec 32) + 1).toNat = 3 := by decide
    have hnat : (2 + 1 + sb.nrSectMapSects).toNat =
        3 + sb.nrSectMapSects.toNat := by
      rw [BitVec.toNat_add, h3]
      omega
    rw [hm.imap, BitVec.toInt_eq_toNat_of_lt (by rw [hnat]; omega), hnat]
  rw [createInodeArray] at h
  obtain ⟨_, s₁, hfill, h⟩ := run_bind.mp h
  obtain rfl := run_setBuf.mp hfill
  obtain ⟨_, s₂, hfor, hwr⟩ := run_bind.mp h
  rw [forM_setBuf] at hfor
  cases hfor
  rw [hsect] at hwr
  have hsame := sector_wrSects (n := 1) (m := (3 + sb.nrSectMapSects.toNat : Nat))
    (by omega) _ _ _ hwr
  refine ⟨hsame, ?_⟩
  obtain ⟨-, rfl⟩ := run_wrSects.mp hwr
  have hentry : entryByte sb (1 : Nat) =
      512 * (3 + sb.nrSectMapSects.toNat) :=
    entryByte_eq hm (by omega) (by omega)
  obtain ⟨b, hb⟩ : ∃ b, b = put s.fsbuf 0 512 fun _ => (0 : Byte) := ⟨_, rfl⟩
  -- the other inodes of the sector are behind the root inode
  have hbuf : ∀ k < 16, (newInodes sb).zipIdx.foldl
      (fun b p => putInodeFields b (32 * p.2) p.1) b k =
        entryOf (rootInodeOf sb) k := by
    intro k hk
    show putInodeFields (putInodeFields (putInodeFields (putInodeFields
      (putInodeFields b 0 (rootInodeOf sb)) 32 (ttyInode 0)) 64 (ttyInode 1)) 96
      (ttyInode 2)) 128 tarInode k = _
    rw [putInodeFields_eq, put_of_out (by omega), putInodeFields_eq,
      put_of_out (by omega), putInodeFields_eq, put_of_out (by omega),
      putInodeFields_eq, put_of_out (by omega), putInodeFields_eq,
      put_of_in (by omega), Nat.sub_zero]
  have hsector : ∀ k < 16, Function.update s.disk ROOT_DEV_NR
      (put (s.disk ROOT_DEV_NR) (512 * (3 + sb.nrSectMapSects.toNat)) 512
        ((newInodes sb).zipIdx.foldl
          (fun b p => putInodeFields b (32 * p.2) p.1) b)) ROOT_DEV_NR
        (entryByte sb (1 : Nat) + k) =
      put (fun _ => 0) (entryByte sb (1 : Nat)) 16
        (entryOf (rootInodeOf sb)) (entryByte sb (1 : Nat) + k) := by
    intro k hk
    rw [Function.update_self, put_at hk, hentry, put_at (by omega), hbuf k hk]
  obtain ⟨h₁, h₂, h₃, h₄⟩ := @diskInode_put sb 1 (rootInodeOf sb)
    (fun _ => (0 : Byte)) ROOT_DEV_NR
  rw [hb] at hsector
  refine (diskInode_congr hsector).trans ?_
  rw [diskInode] at h₁ h₂ h₃ h₄ ⊢
  rw [show word _ _ = _ from h₁, show word _ _ = _ from h₂,
    show word _ _ = _ from h₃, show word _ _ = _ from h₄]
  rfl

/-- The root directory is written behind the inode array alone. -/
theorem sector_createRootDirectory (hm : Made sb) {n : Nat}
    (hn : n < 259 + sb.nrSectMapSects.toNat) :
    Keeps (SameSector n) (createRootDirectory sb) := by
  have hsect : sb.nr1stDataSect.toInt ≠ n := by
    have hsmap := hm.smap
    have hfirst := hm.first
    rw [BitVec.toInt_eq_toNat_of_lt (by omega), hfirst]
    omega
  refine keeps_bind (sector_setBuf _) fun _ => ?_
  exact keeps_bind (keeps_forM fun _ _ => sector_setBuf _) fun _ =>
    sector_wrSects hsect

end Made

/-! ## The image -/

section Image

variable {s t : Fs} {u : Unit} {sectCnt : BitVec 32}

/-- The super block is read from 56 bytes. -/
theorem superAt_congr {b b' : Nat → Byte} (dev : Int)
    (h : ∀ y < 56, b' y = b y) : superAt b' dev = superAt b dev := by
  have hword : ∀ j < 14, word b' (4 * j) = word b (4 * j) := fun j hj =>
    word_congr fun k hk => h _ (by omega)
  rw [superAt, superAt, hword 0 (by omega), hword 1 (by omega),
    hword 2 (by omega), hword 3 (by omega), hword 4 (by omega),
    hword 5 (by omega), hword 6 (by omega), hword 7 (by omega),
    hword 8 (by omega), hword 9 (by omega), hword 10 (by omega),
    hword 11 (by omega), hword 12 (by omega), hword 13 (by omega)]

/-- The super block that `mkfs` writes is read back. -/
theorem createSuperBlock_super {sb : SuperBlock}
    (h : createSuperBlock sectCnt s = .ok sb t) :
    sb = superBlock sectCnt ROOT_DEV_NR ∧
      superAt (drop (t.disk ROOT_DEV_NR) 512) ROOT_DEV_NR = sb := by
  rw [createSuperBlock] at h
  obtain ⟨_, s₁, hfill, h⟩ := run_bind.mp h
  obtain rfl := run_setBuf.mp hfill
  obtain ⟨_, s₂, hput, h⟩ := run_bind.mp h
  obtain rfl := run_setBuf.mp hput
  obtain ⟨_, s₃, hwr, h⟩ := run_bind.mp h
  obtain ⟨-, rfl⟩ := run_wrSects.mp hwr
  cases h
  refine ⟨rfl, ?_⟩
  obtain ⟨b, hb⟩ : ∃ b, b = put s.fsbuf 0 512 fun _ => (0x90 : Byte) := ⟨_, rfl⟩
  refine (superAt_congr ROOT_DEV_NR fun y hy => ?_).trans
    (superAt_putSuper b (superBlock sectCnt ROOT_DEV_NR))
  show Function.update s.disk ROOT_DEV_NR (put _ (512 * 1) _ _) ROOT_DEV_NR
    (512 + y) = _
  rw [Function.update_self, show 512 + y = 512 * 1 + y by omega,
    put_at (by omega), hb]

/-- The low byte of a word is its first. -/
theorem word_low (b : Nat → Byte) (o : Nat) {k : Nat} (hk : k < 8) :
    (word b o).getLsbD k = (b o).getLsbD k := by
  rw [word, BitVec.getLsbD_append, if_pos hk]

/-- **THE IMAGE** of `mkfs`, unless it has spoilt its own super block. -/
theorem mkfs_image (h : mkfs sectCnt s = .ok u t)
    (hmagic : word (t.disk ROOT_DEV_NR) 512 = MAGIC_V1) :
    superAt (drop (t.disk ROOT_DEV_NR) 512) ROOT_DEV_NR =
        superBlock sectCnt ROOT_DEV_NR ∧
      diskInode (t.disk ROOT_DEV_NR) (superBlock sectCnt ROOT_DEV_NR)
        ROOT_DEV_NR ROOT_INODE_NR =
          rootInodeOf (superBlock sectCnt ROOT_DEV_NR) := by
  have hm := superBlock_made sectCnt ROOT_DEV_NR
  rw [mkfs] at h
  obtain ⟨sb, s₁, hsuper, h⟩ := run_bind.mp h
  obtain ⟨rfl, hs₁⟩ := createSuperBlock_super hsuper
  obtain ⟨sb, hsb⟩ : ∃ sb, superBlock sectCnt ROOT_DEV_NR = sb := ⟨_, rfl⟩
  rw [hsb] at hm hs₁ h ⊢
  obtain ⟨_, s₂, himap, h⟩ := run_bind.mp h
  obtain ⟨_, s₃, hsmap, h⟩ := run_bind.mp h
  obtain ⟨_, s₄, htar, h⟩ := run_bind.mp h
  obtain ⟨_, s₅, harray, hdir⟩ := run_bind.mp h
  have h₂ := sector_createInodeMap _ _ _ himap
  have h₃ := sector_createSectorMap hm _ _ _ hsmap
  obtain ⟨h₅, hroot⟩ := createInodeArray_root hm harray
  have h₆ := sector_createRootDirectory hm (n := 1) (by omega) _ _ _ hdir
  have hA := sector_createRootDirectory hm
    (n := 3 + sb.nrSectMapSects.toNat) (by omega) _ _ _ hdir
  constructor
  · rcases sector_createCmdDotTar hm htar with h₄ | hset
    · have hall := trans_of (SameSector 1) h₂ (trans_of (SameSector 1) h₃
        (trans_of (SameSector 1) h₄ (trans_of (SameSector 1) h₅ h₆)))
      rw [← hs₁]
      exact superAt_congr _ fun y hy => hall _ (by omega) (by omega)
    · -- a set bit of the magic number that it does not have
      exfalso
      have hbyte : t.disk ROOT_DEV_NR 512 = s₄.disk ROOT_DEV_NR 512 :=
        trans_of (SameSector 1) h₅ h₆ 512 (by omega) (by omega)
      have hlow := word_low (t.disk ROOT_DEV_NR) 512
        (show 1 < 8 by omega)
      rw [hmagic, hbyte] at hlow
      rw [bit_byte (by omega), ← hlow] at hset
      exact absurd hset (by decide)
  · have hentry : entryByte sb (1 : Nat) =
        512 * (3 + sb.nrSectMapSects.toNat) :=
      entryByte_eq hm (by omega) (by omega)
    have hbytes : ∀ k < 16, t.disk ROOT_DEV_NR (entryByte sb (1 : Nat) + k) =
        s₅.disk ROOT_DEV_NR (entryByte sb (1 : Nat) + k) := by
      intro k hk
      rw [hentry]
      exact hA _ (by omega) (by omega)
    rw [← hroot]
    exact diskInode_congr hbytes

/-- Writing the super block leaves the tables of FS. -/
theorem keeps_createSuperBlock (sectCnt : BitVec 32) :
    Keeps SameTables (createSuperBlock sectCnt) :=
  keeps_bind (keeps_setBuf _) fun _ => keeps_bind (keeps_setBuf _) fun _ =>
    keeps_bind (keeps_wrSects _ _ _) fun _ => keeps_pure _

/-- So does the loop over the bits of `cmd.tar`. -/
theorem keeps_tarBits (sb : SuperBlock) : ∀ left off cur,
    Keeps SameTables (tarBits sb left off cur) := by
  intro left
  induction left with
  | zero => exact fun off cur => keeps_pure _
  | succ left ih =>
      intro off cur
      refine keeps_ite (fun _ => keeps_throw _) fun _ => ?_
      refine keeps_bind (keeps_setBuf _) fun _ => ?_
      refine keeps_ite (fun _ => ?_) fun _ => ih _ _
      exact keeps_bind (keeps_wrSects _ _ _) fun _ =>
        keeps_bind (keeps_rdSects _ _ _) fun _ => ih _ _

/-- `mkfs` works on the disk only. -/
theorem keeps_mkfs (sectCnt : BitVec 32) : Keeps SameTables (mkfs sectCnt) := by
  refine keeps_bind (keeps_createSuperBlock _) fun sb => ?_
  refine keeps_bind ?_ fun _ => keeps_bind ?_ fun _ => keeps_bind ?_ fun _ =>
    keeps_bind ?_ fun _ => ?_
  · refine keeps_bind (keeps_setBuf _) fun _ => ?_
    refine keeps_bind (keeps_forM fun _ _ => keeps_setBuf _) fun _ => ?_
    exact keeps_get fun _ => keeps_bind keeps_check fun _ =>
      keeps_wrSects _ _ _
  · refine keeps_bind (keeps_setBuf _) fun _ => ?_
    refine keeps_bind (keeps_forM fun _ _ => keeps_setBuf _) fun _ => ?_
    refine keeps_bind (keeps_forM fun _ _ => keeps_setBuf _) fun _ => ?_
    refine keeps_bind (keeps_wrSects _ _ _) fun _ => ?_
    exact keeps_bind (keeps_setBuf _) fun _ =>
      keeps_forM fun _ _ => keeps_wrSects _ _ _
  · refine keeps_bind keeps_check fun _ => ?_
    refine keeps_bind (keeps_rdSects _ _ _) fun _ => ?_
    exact keeps_bind (keeps_tarBits _ _ _ _) fun _ => keeps_wrSects _ _ _
  · refine keeps_bind (keeps_setBuf _) fun _ => ?_
    exact keeps_bind (keeps_forM fun _ _ => keeps_setBuf _) fun _ =>
      keeps_wrSects _ _ _
  · refine keeps_bind (keeps_setBuf _) fun _ => ?_
    exact keeps_bind (keeps_forM fun _ _ => keeps_setBuf _) fun _ =>
      keeps_wrSects _ _ _

/-- The first super block of a table that has none but it. -/
theorem superOf_first {sb : SuperBlock} (hdev : sb.sbDev = ROOT_DEV_NR)
    (h : s.superBlockTable ⟨0, first_super⟩ = sb) :
    s.superOf ROOT_DEV_NR = some sb := by
  have hfirst : List.finRange NR_SUPER_BLOCK =
      ⟨0, first_super⟩ :: (List.finRange NR_SUPER_BLOCK).tail := rfl
  rw [Fs.superOf, hfirst, List.find?_cons_of_pos, Option.map_some, h]
  rw [h]
  exact decide_eq_true hdev

/-- A file system is made where the magic number is missing, and `rest` runs. -/
theorem made_or_there {s₀ : Fs} {rest : FsM Unit}
    (h : (if word s₀.fsbuf 0 ≠ MAGIC_V1 then mkfs sectCnt >>= fun _ => rest
      else pure () >>= fun _ => rest) s₀ = .ok () s) :
    ∃ u, SameTables s₀ u ∧
      (word s₀.fsbuf 0 ≠ MAGIC_V1 → mkfs sectCnt s₀ = .ok () u) ∧
      rest u = .ok () s := by
  by_cases hno : word s₀.fsbuf 0 ≠ MAGIC_V1
  · rw [if_pos hno] at h
    obtain ⟨_, u, hmkfs, h⟩ := run_bind.mp h
    exact ⟨u, keeps_mkfs sectCnt _ _ _ hmkfs, fun _ => hmkfs, h⟩
  · rw [if_neg hno] at h
    exact ⟨s₀, same_refl s₀, fun hn => absurd hn hno, h⟩

/-- **`init_fs`**: the disk with a file system on it, found or made, and what is
    in the tables: the root inode and nothing else. -/
theorem initFs_run {s₀ : Fs} (h : initFs sectCnt s₀ = .ok () s) :
    ∃ u sb, (word (s₀.disk ROOT_DEV_NR) 512 ≠ MAGIC_V1 →
        ∃ v, v.disk = s₀.disk ∧ mkfs sectCnt v = .ok () u) ∧
      sb = superAt (drop (u.disk ROOT_DEV_NR) 512) ROOT_DEV_NR ∧
      sb.magic = MAGIC_V1 ∧
      s.inodeTable = Function.update (fun _ => freeEntry) s.rootInode
        (diskInode (u.disk ROOT_DEV_NR) sb ROOT_DEV_NR ROOT_INODE_NR) ∧
      (s.fileDescTable = fun _ => ⟨0, 0, 0, none⟩) ∧
      s.fileDesc = s₀.fileDesc ∧ s.disk = u.disk ∧
      s.superOf ROOT_DEV_NR = some sb := by
  rw [initFs] at h
  obtain ⟨_, s₁, hclear, h⟩ := run_bind.mp h
  obtain rfl := run_modify.mp hclear
  obtain ⟨_, s₂, hrd, h⟩ := run_bind.mp h
  obtain ⟨-, rfl⟩ := run_rdSects.mp hrd
  rw [run_get_bind] at h
  obtain ⟨v, hv⟩ : ∃ v, v = { clearTables s₀ with
    fsbuf := put (clearTables s₀).fsbuf 0 (512 * 1)
      (drop ((clearTables s₀).disk ROOT_DEV_NR) (512 * (1 : Int).toNat)) } :=
    ⟨_, rfl⟩
  have hword : word v.fsbuf 0 = word (s₀.disk ROOT_DEV_NR) 512 := by
    rw [hv]
    refine word_congr fun k hk => ?_
    dsimp only
    rw [put_of_in (by omega), Nat.sub_zero, Nat.zero_add]
    rfl
  rw [← hv] at h
  -- a file system is made or there is one
  obtain ⟨u, hu, hmade, h⟩ := made_or_there h
  obtain ⟨_, w, hread, h⟩ := run_bind.mp h
  have hfree : freeSuper u = some ⟨0, first_super⟩ := by
    rw [freeSuper, hu.supers, hv]
    rfl
  rw [readSuperBlock_run ROOT_DEV_NR hfree rfl] at hread
  obtain ⟨sb, hsb⟩ : ∃ sb, sb = superAt (drop (u.disk ROOT_DEV_NR) 512)
    ROOT_DEV_NR := ⟨_, rfl⟩
  rw [← hsb] at hread
  have hw := (EStateM.Result.ok.inj hread).2
  have hsuper : w.superOf ROOT_DEV_NR = some sb := by
    refine superOf_first (by rw [hsb]; rfl) ?_
    rw [← hw]
    rfl
  obtain ⟨sb', _, hget, h⟩ := run_bind.mp h
  obtain ⟨hsb', rfl⟩ := run_getSuperBlock.mp hget
  obtain rfl := Option.some.inj (hsuper.symm.trans hsb')
  obtain ⟨_, _, hcheck, h⟩ := run_bind.mp h
  obtain ⟨hmagic, rfl⟩ := run_check.mp hcheck
  obtain ⟨p, x, hinode, h⟩ := run_bind.mp h
  have htable : w.inodeTable = fun _ => freeEntry := by
    rw [← hw]
    exact hu.inodes.trans (by rw [hv]; rfl)
  -- the table is empty, so the root inode is loaded
  obtain ⟨i, rfl, ⟨hcached, -⟩ | ⟨-, -, sb₂, hsb₂, -, rfl⟩⟩ :=
    run_getFileInode (by decide) hinode
  · have hnone : w.cached ROOT_DEV_NR ROOT_INODE_NR = none := by
      rw [Fs.cached, htable]
      rfl
    rw [hnone] at hcached
    cases hcached
  · obtain rfl := Option.some.inj (hsuper.symm.trans hsb₂)
    obtain rfl := run_modify.mp h
    have hdisk : w.disk = u.disk := by rw [← hw]
    have hold : v.disk = s₀.disk := by
      rw [hv]
      rfl
    refine ⟨u, sb, fun hno => ⟨v, hold, hmade (hword.symm ▸ hno)⟩, hsb, hmagic, ?_,
      ?_, ?_, hdisk, hsuper⟩
    · dsimp only [Fs.updInode]
      rw [htable, hdisk]
    · dsimp only [Fs.updInode]
      rw [← hw]
      exact hu.descs.trans (by rw [hv]; rfl)
    · dsimp only [Fs.updInode]
      rw [← hw]
      exact hu.slots.trans (by rw [hv]; rfl)

/-- **THE TABLES OF A NEW FILE SYSTEM**: the root inode is in one entry, the
    others are free, and there is no descriptor. -/
theorem fresh_tables (h : Fresh s) : ∃ sectCnt,
    s.inodeTable = Function.update (fun _ => freeEntry) s.rootInode
      (rootInodeOf (superBlock sectCnt ROOT_DEV_NR)) ∧
      ∀ d, (s.fileDescTable d).inode = none := by
  obtain ⟨sectCnt, s₀, hold, h⟩ := h
  obtain ⟨u, sb, hmade, hsb, hmagic, htable, hdescs, -, -, -⟩ := initFs_run h
  obtain ⟨v, -, hmkfs⟩ := hmade hold
  have hword : word (u.disk ROOT_DEV_NR) 512 = MAGIC_V1 := by
    rw [← hmagic, hsb]
    rfl
  obtain ⟨hsuper, hroot⟩ := mkfs_image hmkfs hword
  rw [hsb, hsuper, hroot] at htable
  refine ⟨sectCnt, htable, fun d => ?_⟩
  rw [hdescs]

end Image

end KosFresh
