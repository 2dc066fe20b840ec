import Kos.DiskImageProofs
import Kos.NewEntryProofs
import Mathlib.Data.Nat.Count

/-! # What the functions do to the disk

    `create_file`, `do_unlink` and the transfers are sequences of functions
    that each change one part of the image of the disk, or one entry of
    `inode_table`, or both.

    * `Becomes` is the tables and the image behind such a function; there is
      one lemma for each of them;
    * a transfer of a file whose sectors are behind the root directory changes
      the image in the size of its inode only (`becomes_regular`). -/

namespace KosDiskSteps

open FlatMemory (Byte)
open Overlay
open BitMap (FirstClear AllSet Marks Clears)
open FrameRule
open KosFs
open KosMkfs
open KosInodeArray
open KosFileNames
open KosReadWrite
open KosOpenFile
open KosUnlink
open KosInodeMap (inodeMap)
open KosSectorMap (allocSectMapBit sectorNr mapSize mapByte mapOf)
open KosRootDirectory (RootDir Placed placed_numbers placed_of_rootDir numAt)
open KosNewEntry (FreeSlot putEntry_sector dirEntry_eq toInt_eq_zero)
open KosTables
open KosDiskImage

/-- The image of the root device. -/
def imageIn (sb : SuperBlock) (s : Fs) : Image := imageOf sb (s.disk ROOT_DEV_NR)

/-- The tables are those of `w`, and the disk has the image `m`. -/
structure Becomes (sb : SuperBlock) (w : Fs) (m : Image) (t : Fs) : Prop where
  tables : SameTables w t
  image : imageIn sb t = m

/-- The device has become `f`. -/
theorem becomes_disk {sb : SuperBlock} {w s t : Fs} {f : Nat → Byte} {m : Image}
    (htables : SameTables w t)
    (hdisk : t.disk = Function.update s.disk ROOT_DEV_NR f)
    (himage : imageOf sb f = m) : Becomes sb w m t := by
  refine ⟨htables, ?_⟩
  rw [imageIn, hdisk, Function.update_self]
  exact himage

/-! ## The maps -/

section Maps

variable {sb : SuperBlock} {s t : Fs} {nr a : Int} {n : Nat} {i : Fin NR_INODE}
  {u : Unit}

/-- A number that is given out was free. -/
theorem becomes_allocInode (hm : Made sb) (hne : nr ≠ 0)
    (h : allocInodeMapBit ROOT_DEV_NR s = .ok nr t) :
    ∃ b : Nat, nr = b ∧ b < 4096 ∧
      FirstClear (inodeMap (s.disk ROOT_DEV_NR)) 0 4096 b ∧
      (imageIn sb s).inodeBit b = false ∧
      Becomes sb s ((imageIn sb s).setInodeBit b true) t := by
  have htables := keeps_allocInodeMapBit _ _ _ h
  rcases run_allocInodeMapBit h with ⟨h0, -⟩ | ⟨b, f', g, hfirst, rfl, hmarks, rfl⟩
  · exact absurd h0 hne
  · refine ⟨b, rfl, hfirst.2.1, hfirst, ?_, becomes_disk htables rfl ?_⟩
    · show (decide _ && BitMap.bit (inodeMap _) b) = false
      rw [show BitMap.bit (inodeMap (s.disk ROOT_DEV_NR)) b = false from
        hfirst.2.2.1, Bool.and_false]
    · refine image_inodeBit hm hfirst.2.1 fun y => ?_
      rw [hmarks]
      by_cases hy : y = 8 * 1024 + b
      · rw [if_pos hy, decide_eq_true (by omega), Bool.or_true]
      · rw [if_neg hy, decide_eq_false (by omega), Bool.or_false]

/-- Sectors that are given out were free. -/
theorem becomes_allocSects (hm : Made sb) (hsb : s.superOf ROOT_DEV_NR = some sb)
    (hn : 0 < n) (h : allocSectMapBit ROOT_DEV_NR n s = .ok a t) :
    ∃ b : Nat, a = sectorNr sb b ∧ b + n ≤ mapSize sb ∧
      (∀ y < b, (imageIn sb s).sectBit y = true) ∧
      (∀ y, b ≤ y → y < b + n → (imageIn sb s).sectBit y = false) ∧
      Becomes sb s ((imageIn sb s).takeSects b n) t := by
  have htables := keeps_allocSectMapBit _ _ _ _ h
  obtain ⟨b, f', g, ⟨⟨-, hlt, -, hset⟩, -, -, hclear, hend, -⟩, rfl, hmarks, rfl⟩ :=
    KosSectorMap.alloc_run hsb hn (fun z hz => sectorNr_ne hm hz) h
  refine ⟨b, rfl, hend, fun y hy => ?_, fun y h₁ h₂ => ?_,
    becomes_disk htables rfl (image_marks hm hmarks hend)⟩
  · show (decide (y < mapSize sb) && BitMap.bit (mapOf sb _) y) = true
    rw [hset y (Nat.zero_le y) hy, decide_eq_true (by omega)]
    rfl
  · show (decide _ && BitMap.bit (mapOf sb _) y) = false
    rw [hclear y h₁ h₂, Bool.and_false]

/-- A byte with one bit cleared. -/
theorem cleared_byte {c : Byte} {k l : Nat} (hk : k < 8) (hl : l < 8) :
    (c &&& ~~~((1 : Byte) <<< k)).getLsbD l =
      (c.getLsbD l && !decide (k ≤ l ∧ l < k + 1)) := by
  have hbit : decide (k = l) = decide (k ≤ l ∧ l < k + 1) :=
    decide_eq_decide.mpr (by omega)
  rw [BitVec.getLsbD_and, BitVec.getLsbD_not, decide_eq_true hl, Bool.true_and,
    show (1 : Byte) <<< k = BitVec.twoPow 8 k from rfl, BitVec.getLsbD_twoPow,
    decide_eq_true hk, Bool.true_and, hbit]

/-- A number is given back. -/
theorem becomes_clearInode (hm : Made sb)
    (h : clearInodeMapBit ROOT_DEV_NR nr s = .ok u t) :
    ∃ b : Nat, nr = b ∧ b < 4096 ∧ (imageIn sb s).inodeBit b = true ∧
      Becomes sb s ((imageIn sb s).setInodeBit b false) t := by
  have htables := keeps_clearInodeMapBit _ _ _ h
  obtain ⟨_, _, hcheck, h⟩ := run_bind.mp h
  obtain ⟨hlt, rfl⟩ := run_check.mp hcheck
  obtain ⟨_, s₁, hrd, h⟩ := run_bind.mp h
  obtain ⟨haddr, hs₁⟩ := run_rdSects.mp hrd
  split at h
  · cases h
  rename_i hneg
  obtain ⟨b, rfl⟩ := Int.eq_ofNat_of_zero_le (Int.not_lt.mp hneg)
  have hb : b < 4096 := by
    rw [Int.tdiv_eq_ediv_of_nonneg (by omega)] at hlt
    omega
  obtain ⟨_, s₂, hclear, hwr⟩ := run_bind.mp h
  rw [Int.toNat_natCast, clearBit, run_get_bind] at hclear
  obtain ⟨_, _, hassert, hset⟩ := run_bind.mp hclear
  obtain ⟨hbit, rfl⟩ := run_check.mp hassert
  obtain rfl := run_setBuf.mp hset
  obtain ⟨-, rfl⟩ := run_wrSects.mp hwr
  -- the buffer is the first sector of the map
  have hread : ∀ y < 8 * 512, BitMap.bit s₁.fsbuf y =
      BitMap.bit (s.disk ROOT_DEV_NR) (8 * 1024 + y) := by
    intro y hy
    rw [hs₁, ← BitMap.bit_drop, BitMap.bit]
    dsimp only
    rw [put_of_in (by omega), Nat.sub_zero]
    rfl
  have hclears := BitMap.clears_update (f := s₁.fsbuf) (j := b / 8)
    (show b % 8 + 1 ≤ 8 by omega) fun l hl =>
      cleared_byte (Nat.mod_lt b (by omega)) hl
  have hblock := BitMap.clears_block hread hclears (by omega)
  refine ⟨b, rfl, hb, ?_, becomes_disk htables rfl ?_⟩
  · rw [← BitMap.bit_byte (Nat.mod_lt _ (by omega)), hread _ (by omega),
      show 8 * (b / 8) + b % 8 = b by omega, ← BitMap.bit_drop] at hbit
    show (decide _ && BitMap.bit (drop (s.disk ROOT_DEV_NR) 1024) b) = true
    rw [hbit, decide_eq_true hb, Bool.true_and]
  · have hdisk : s₁.disk = s.disk := by rw [hs₁]
    refine image_inodeBit hm hb fun y => ?_
    rw [hdisk]
    refine (hblock y).trans ?_
    by_cases hy : y = 8 * 1024 + b
    · rw [if_pos hy, decide_eq_true (by omega), Bool.not_true, Bool.and_false]
    · rw [if_neg hy, decide_eq_false (by omega), Bool.not_false, Bool.and_true]

/-- The sectors of an inode are given back. -/
theorem becomes_clearSects {b : Nat} (hm : Made sb)
    (hdev : (s.inodeTable i).dev = ROOT_DEV_NR)
    (hsb : s.superOf ROOT_DEV_NR = some sb) (h0 : 0 < n) (hn : n < 2147483648)
    (hend : b + n ≤ mapSize sb) (hb : b < 2147483648)
    (hstart : (s.inodeTable i).sectStart = BitVec.ofInt 32 (sectorNr sb b))
    (hnr : (s.inodeTable i).nrSects = BitVec.ofNat 32 n)
    (hset : ∀ y, b ≤ y → y < b + n → (imageIn sb s).sectBit y = true) :
    ∃ t, clearSectorMapBits i s = .ok () t ∧
      Clears (s.disk ROOT_DEV_NR) (t.disk ROOT_DEV_NR)
        (8 * mapByte sb + b) n ∧
      Becomes sb s ((imageIn sb s).freeSects b n) t := by
  have hall : AllSet (mapOf sb (s.disk ROOT_DEV_NR)) b (b + n) := by
    intro y h₁ h₂
    exact (Bool.and_eq_true_iff.mp (hset y h₁ h₂)).2
  obtain ⟨t, hrun, hclears, -⟩ := clearSectorMapBits_run hm (hdev ▸ hsb) hb hn
    hend h0 hstart hnr (hdev ▸ hall)
  rw [hdev] at hclears
  exact ⟨t, hrun, hclears, keeps_clearSectorMapBits i _ _ _ hrun,
    image_clears hm hclears hend⟩

end Maps

/-! ## Inodes -/

section Inodes

variable {sb : SuperBlock} {s t : Fs} {nr : Int} {n : Nat} {i : Fin NR_INODE}
  {p : Inode} {u : Unit} {m : Image}

theorem setInode_self (h : m.inode n = asStored n p) : m.setInode n p = m := by
  rw [Image.setInode, ← h, Function.update_eq_self]

/-- **`write_inode`** puts an inode into the image. -/
theorem becomes_writeInode (hm : Made sb) (hsb : s.superOf ROOT_DEV_NR = some sb)
    (hp : s.inodeTable i = p) (hdev : p.dev = ROOT_DEV_NR) (hnr : p.nr = n)
    (h1 : 1 ≤ n) (h2 : n ≤ 4096) (h : writeInode i s = .ok u t) :
    Becomes sb s ((imageIn sb s).setInode n p) t := by
  obtain ⟨sb', hsb', -, rfl⟩ := run_writeInode.mp h
  rw [hp, hdev, hsb] at hsb'
  obtain rfl := Option.some.inj hsb'
  have hdisk : (s.written i sb).disk = Function.update s.disk ROOT_DEV_NR
      (put (s.disk ROOT_DEV_NR) (entryByte sb n) 16 (entryOf p)) := by
    rw [Fs.written, hp, hdev, hnr]
  exact becomes_disk ⟨rfl, rfl, rfl, rfl, rfl⟩ hdisk (image_inode hm h1 h2 p)

variable (sb) in
theorem becomes_getFileInode {q : Option (Fin NR_INODE)} (hnr : nr ≠ 0)
    (h : getFileInode ROOT_DEV_NR nr s = .ok q t) :
    ∃ i w, q = some i ∧ Obtained s ROOT_DEV_NR nr i w ∧
      Becomes sb w (imageIn sb s) t := by
  obtain ⟨i, rfl, ⟨hc, rfl⟩ | ⟨hc, hf, sb', hsb', -, rfl⟩⟩ :=
    run_getFileInode hnr h
  · exact ⟨i, _, rfl, .cached hc, same_refl _, rfl⟩
  · exact ⟨i, _, rfl, .loaded sb' hc hf hsb', ⟨rfl, rfl, rfl, rfl, rfl⟩, rfl⟩

/-- A change of an inode in its table, and on the disk. -/
theorem becomes_update (hm : Made sb) (hsb : s.superOf ROOT_DEV_NR = some sb)
    {f : Inode → Inode} (hp : s.inodeTable i = p)
    (hdev : (f p).dev = ROOT_DEV_NR) (hnr : (f p).nr = n) (h1 : 1 ≤ n)
    (h2 : n ≤ 4096) (h : writeInode i (s.updInode i f) = .ok u t) :
    Becomes sb (s.updInode i f) ((imageIn sb s).setInode n (f p)) t := by
  have hinode : (s.updInode i f).inodeTable i = f p := by
    rw [updInode_self, hp]
  exact becomes_writeInode (s := s.updInode i f) hm hsb hinode hdev hnr h1 h2 h

/-- Whatever was obtained is replaced. -/
theorem obtained_replaced {w : Fs} {dev : Int} (h : Obtained s dev nr i w)
    (q : Inode) :
    SameTables (s.updInode i fun _ => q) (w.updInode i fun _ => q) := by
  cases h with
  | cached _ =>
      refine ⟨?_, rfl, rfl, rfl, rfl⟩
      rw [Fs.updInode, Fs.updInode, Fs.updInode]
      exact Function.update_idem ..
  | loaded _ _ _ _ =>
      refine ⟨?_, rfl, rfl, rfl, rfl⟩
      rw [Fs.updInode, Fs.updInode, Fs.updInode]
      exact Function.update_idem ..

/-- **`make_new_inode`** replaces the inode of a number. -/
theorem becomes_makeNewInode {b : Nat} {start : Int} (hm : Made sb)
    (hsb : s.superOf ROOT_DEV_NR = some sb) (h1 : 1 ≤ b) (h2 : b ≤ 4096)
    (h : makeNewInode ROOT_DEV_NR b start s = .ok i t) :
    (s.cached ROOT_DEV_NR b = some i ∨
      s.cached ROOT_DEV_NR b = none ∧ s.freeInode = some i) ∧
      Becomes sb (s.updInode i fun _ => newInode ROOT_DEV_NR b start)
        ((imageIn sb s).setInode b (newInode ROOT_DEV_NR b start)) t := by
  obtain ⟨hne, v, sb', hget, hsb', hst, ht⟩ := run_makeNewInode h
  obtain ⟨j, w, hj, hobt, hv⟩ := becomes_getFileInode sb hne hget
  cases hj
  have hw : writeInode i (v.updInode i fun _ => newInode ROOT_DEV_NR b start) =
      .ok () t := by
    refine run_writeInode.mpr ⟨sb', ?_, ?_, ht⟩
    · rw [updInode_self]
      exact hsb'
    · rw [updInode_self]
      exact hst
  have hnew := same_trans (obtained_replaced hobt (newInode ROOT_DEV_NR b start))
    (same_updInode hv.tables i _)
  have hsuper : v.superOf ROOT_DEV_NR = some sb :=
    (superOf_congr (s := s) hnew.supers).trans hsb
  have hnext := becomes_update hm hsuper
    (f := fun _ => newInode ROOT_DEV_NR b start) rfl rfl rfl h1 h2 hw
  refine ⟨?_, same_trans hnew hnext.tables, ?_⟩
  · cases hobt with
    | cached hc => exact Or.inl hc
    | loaded _ hc hfree _ => exact Or.inr ⟨hc, hfree⟩
  · rw [hnext.image, hv.image]

/-- O_TRUNC. -/
theorem becomes_trunc {flags : BitVec 32} (hm : Made sb)
    (hsb : s.superOf ROOT_DEV_NR = some sb) (hp : s.inodeTable i = p)
    (hdev : p.dev = ROOT_DEV_NR) (hnr : p.nr = n) (h1 : 1 ≤ n) (h2 : n ≤ 4096)
    (hstored : (imageIn sb s).inode n = asStored n p)
    (h : truncInode flags (some i) s = .ok u t) :
    Becomes sb (truncated flags i s) ((imageIn sb s).setInode n
      ((truncated flags i s).inodeTable i)) t := by
  rw [truncInode] at h
  by_cases hflags : flags &&& O_TRUNC = 0
  · rw [if_pos hflags] at h
    cases h
    rw [truncated, if_pos hflags, hp, setInode_self hstored]
    exact ⟨same_refl s, rfl⟩
  · rw [if_neg hflags] at h
    obtain ⟨_, v, hmod, hw⟩ := run_bind.mp h
    obtain rfl := run_modify.mp hmod
    rw [truncated, if_neg hflags, updInode_self, hp]
    exact becomes_update hm hsb (f := fun p => { p with fileSize := 0 }) hp hdev
      hnr h1 h2 hw

/-- An inode without a file. -/
theorem becomes_clearFields (hm : Made sb) (hsb : s.superOf ROOT_DEV_NR = some sb)
    (hp : s.inodeTable i = p) (hdev : p.dev = ROOT_DEV_NR) (hnr : p.nr = n)
    (h1 : 1 ≤ n) (h2 : n ≤ 4096) (h : clearInodeFields i s = .ok u t) :
    Becomes sb (lessUsed i (s.updInode i emptied))
      ((imageIn sb s).setInode n (emptied p)) t := by
  obtain ⟨_, v, hmod, h⟩ := run_bind.mp h
  obtain rfl := run_modify.mp hmod
  obtain ⟨_, w, hw, hput⟩ := run_bind.mp h
  obtain ⟨-, rfl⟩ := putInode_tables hput
  obtain ⟨htables, himage⟩ := becomes_update hm hsb (f := emptied) hp hdev hnr h1
    h2 hw
  exact ⟨same_updInode htables i _, himage⟩

end Inodes

/-! ## Transfers -/

section Transfers

variable {io : Io} {sb : SuperBlock} {s t : Fs} {n : Nat} {i : Fin NR_INODE}
  {d : Fin NR_FILE_DESC} {p : Inode} {u : Unit} {B : Nat}

/-- The bytes of the root device before `B` are as they were. -/
def FrontKept (B : Nat) (s t : Fs) : Prop :=
  ∀ x < B, t.disk ROOT_DEV_NR x = s.disk ROOT_DEV_NR x

instance (B : Nat) : IsPreorder Fs (FrontKept B) where
  refl _ := fun _ _ => rfl
  trans _ _ _ h₁ h₂ := fun x hx => (h₂ x hx).trans (h₁ x hx)

theorem front_rwRound {chunk a : Int} {v : Rw}
    (ha : io = .read ∨ (B : Int) ≤ 512 * a) :
    Keeps (FrontKept B) (rwRound io ROOT_DEV_NR d chunk a v) := by
  have hcopy : ∀ n, Keeps (FrontKept B) (copyBytes io ROOT_DEV_NR a chunk n v) := by
    intro n
    cases io with
    | read => exact keeps_get fun s => keeps_pure _
    | write =>
        refine keeps_bind (keeps_modify fun s => refl_of (FrontKept B) s)
          fun _ => keeps_bind ?_ fun _ => keeps_pure _
        intro s _ t h x hx
        have hbehind := ha.resolve_left Io.noConfusion
        obtain ⟨-, rfl⟩ := run_wrSects.mp h
        dsimp only
        rw [Function.update_self, put_of_out (by omega)]
  refine keeps_bind ?_ fun _ => keeps_bind ?_ fun n => keeps_bind (hcopy n)
    fun buf => keeps_bind ?_ fun _ => keeps_pure _
  · intro s _ t h
    obtain ⟨-, rfl⟩ := run_rdSects.mp h
    exact refl_of (FrontKept B) s
  · exact keeps_ite (fun _ => keeps_pure _) fun _ => keeps_throw _
  · exact keeps_modify fun s => refl_of (FrontKept B) s

/-- **A TRANSFER** begins at its first sector, and a read leaves the disk. -/
theorem front_rwLoop {hi chunk : Int} (hc : io = .read ∨ 0 < chunk) :
    ∀ {fuel : Nat} {a : Int} {v : Rw}, io = .read ∨ (B : Int) ≤ 512 * a →
      Keeps (FrontKept B) (rwLoop io ROOT_DEV_NR d hi chunk fuel a v) := by
  intro fuel
  induction fuel with
  | zero =>
      intro a v _
      exact keeps_ite (fun _ => keeps_throw _) fun _ => keeps_pure _
  | succ fuel ih =>
      intro a v ha
      refine keeps_ite (fun _ => ?_) fun _ => keeps_pure _
      refine keeps_bind (front_rwRound ha) fun v => ih ?_
      rcases hc with hread | hc
      · exact Or.inl hread
      · exact ha.imp_right fun _ => by omega

/-- No position of a file is in front of it. -/
theorem rwSect_from {pos : Int} (h0 : 0 ≤ pos) (hlt : pos < 2147483648)
    (hsmall : p.sectStart.toNat < 1073741824) :
    (p.sectStart.toNat : Int) ≤ rwSect p pos := by
  obtain ⟨q, rfl⟩ := Int.eq_ofNat_of_zero_le h0
  rw [rwSect_eq (by omega), if_pos (by omega)]
  omega

/-- **A FILE BEHIND THE ROOT DIRECTORY** is read or written: only the size of
    its inode changes in the image. -/
theorem becomes_regular {len : Int} {buf : Nat → Byte} {r : Int × (Nat → Byte)}
    (hm : Made sb) (hsb : s.superOf ROOT_DEV_NR = some sb)
    (hp : s.inodeTable i = p) (hdev : p.dev = ROOT_DEV_NR) (hnr : p.nr = n)
    (h1 : 1 ≤ n) (h2 : n ≤ 4096)
    (hstored : (imageIn sb s).inode n = asStored n p)
    (hpos : 0 ≤ (s.fileDescTable d).pos ∧ (s.fileDescTable d).pos < 2147483648)
    (hstart : sb.nr1stDataSect.toNat + 2048 ≤ p.sectStart.toNat)
    (hsmall : p.sectStart.toNat < 1073741824)
    (h : doReadWriteRegular io i d len buf s = .ok r t) :
    ∃ k : Nat, (s.fileDescTable d).pos + k < 2147483648 ∧
      Becomes sb (extended i d (advanced d k s))
        ((imageIn sb s).setInode n
          ((extended i d (advanced d k s)).inodeTable i)) t := by
  obtain ⟨ret, buf'⟩ := r
  obtain ⟨-, hint, v, w, hloop, hgrow, -⟩ := (run_regular hp rfl).mp h
  rw [hdev] at hloop
  obtain ⟨k, hk, hmoved⟩ := rwLoop_tables hloop
  have hend : (s.fileDescTable d).pos + k < 2147483648 := by
    rcases hmoved with rfl | ⟨-, -, hle, -⟩
    · exact (Int.add_zero _).symm ▸ hpos.2
    · dsimp only at hle
      omega
  -- the first sector is behind the root directory
  have hfront : FrontKept (dirByte sb + DIR_BYTES) s w := by
    have hsect := rwSect_from hpos.1 hpos.2 hsmall
    by_cases hin : rwSect p (s.fileDescTable d).pos ≤
        rwSect p (posEnd io p ((s.fileDescTable d).pos + len))
    · refine front_rwLoop (Or.inr (by omega)) (Or.inr ?_) _ _ _ hloop
      rw [dirByte, DIR_BYTES, SECTOR_SIZE, NR_FILE_SECTS]
      omega
    · have hstop : w = s := by
        rw [show (rwSect p (posEnd io p ((s.fileDescTable d).pos + len)) -
          rwSect p (s.fileDescTable d).pos + 1).toNat = 0 by omega, rwLoop,
          if_neg hin] at hloop
        cases hloop
        rfl
      rw [hstop]
      exact refl_of (FrontKept _) s
  have himage : imageIn sb w = imageIn sb s := image_behind hm hfront
  refine ⟨k, hend, ?_⟩
  have hsame := same_extended hk i d
  have hw : w.inodeTable i = p := by
    rw [hk.inodes]
    exact hp
  have hgrown : (extended i d (advanced d k s)).inodeTable i =
      (extended i d w).inodeTable i := by rw [hsame.inodes]
  rw [hgrown, ← himage]
  rw [← himage] at hstored
  have hsb' : w.superOf ROOT_DEV_NR = some sb := (superOf_congr hk.supers).trans hsb
  rw [growSize, run_get_bind] at hgrow
  by_cases hlt : (w.inodeTable i).fileSize <
      BitVec.ofInt 32 (w.fileDescTable d).pos
  · rw [if_pos hlt] at hgrow
    obtain ⟨_, x, hmod, hw'⟩ := run_bind.mp hgrow
    obtain rfl := run_modify.mp hmod
    have hb := becomes_update hm hsb' (f := fun q => { q with
      fileSize := BitVec.ofInt 32 (w.fileDescTable d).pos }) hw hdev hnr h1 h2 hw'
    have hext : extended i d w = w.updInode i fun q => { q with
        fileSize := BitVec.ofInt 32 (w.fileDescTable d).pos } := if_pos hlt
    rw [hext, updInode_self, hw]
    rw [hext] at hsame
    exact ⟨same_trans hsame hb.tables, hb.image⟩
  · rw [if_neg hlt] at hgrow
    cases hgrow
    have hext : extended i d t = t := if_neg hlt
    rw [hext, hw, setInode_self hstored]
    rw [hext] at hsame
    exact ⟨hsame, rfl⟩

/-- **A READ INSIDE A FILE** moves the descriptor, and nothing else. -/
theorem becomes_read {len : Int} {buf : Nat → Byte} {r : Int × (Nat → Byte)}
    (hm : Made sb) (hp : s.inodeTable i = p) (hdev : p.dev = ROOT_DEV_NR)
    (h0 : 0 ≤ (s.fileDescTable d).pos) (hlen : 0 ≤ len)
    (hend : (s.fileDescTable d).pos + len ≤ p.fileSize.toNat)
    (h : doReadWriteRegular .read i d len buf s = .ok r t) :
    ∃ k : Nat, (s.fileDescTable d).pos + k < 2147483648 ∧
      Becomes sb (advanced d k s) (imageIn sb s) t := by
  obtain ⟨ret, buf'⟩ := r
  obtain ⟨-, hint, v, w, hloop, hgrow, -⟩ := (run_regular hp rfl).mp h
  rw [hdev] at hloop
  obtain ⟨k, hk, hmoved⟩ := rwLoop_tables hloop
  have hle : (k : Int) ≤ len := by
    rcases hmoved with rfl | ⟨-, -, hle, -⟩
    · exact hlen
    · exact hle
  have himage : imageIn sb w = imageIn sb s :=
    image_behind hm (front_rwLoop (Or.inl rfl) (Or.inl rfl) _ _ _ hloop)
  have hpos : (w.fileDescTable d).pos = (s.fileDescTable d).pos + k := by
    rw [hk.descs, advanced, updDesc_self]
  -- the size is not behind the position
  have hsize : ¬ (w.inodeTable i).fileSize <
      BitVec.ofInt 32 (w.fileDescTable d).pos := by
    obtain ⟨pos, hnat⟩ := Int.eq_ofNat_of_zero_le h0
    have hw : w.inodeTable i = p := by
      rw [hk.inodes]
      exact hp
    rw [hw, hpos, hnat, ← Int.natCast_add, BitVec.ofInt_natCast, BitVec.lt_def,
      BitVec.toNat_ofNat]
    omega
  rw [growSize, run_get_bind, if_neg hsize] at hgrow
  cases hgrow
  exact ⟨k, by omega, hk, himage⟩

end Transfers

/-! ## The root directory -/

section Directory

variable {sb : SuperBlock} {s t : Fs} {r : Inode} {root : Fin NR_INODE}
  {nr : Int} {name : List Byte} {u : Unit} {f b : Nat → Byte}

/-- The directory is in its place, and its size is that of its inode. -/
structure AtRoot (sb : SuperBlock) (s : Fs) (root : Fin NR_INODE) (r : Inode) :
    Prop where
  entry : s.inodeTable root = r
  dev : r.dev = ROOT_DEV_NR
  nr : r.nr = ROOT_INODE_NR
  dir : RootDir sb r
  stored : (imageIn sb s).inode 1 = asStored 1 r

/-- The bytes of the directory, as far as its sectors go. -/
theorem dir_byte {a : Nat} (ha : a < DIR_BYTES) :
    (imageIn sb s).dir a = drop (s.disk ROOT_DEV_NR) (dirByte sb) a := if_pos ha

theorem numAt_dir {k : Nat} (hk : 16 * k + 4 ≤ DIR_BYTES) :
    numAt (imageIn sb s).dir k =
      numAt (drop (s.disk ROOT_DEV_NR) (dirByte sb)) k :=
  congrArg BitVec.toInt (word_congr fun _ hl => dir_byte (by omega))

/-- A sector of the directory with a new entry, written back. -/
theorem put_newEntry {i j : Nat} (hj : j < 32) (hlen : name.length ≤ 11) :
    put f (512 * i) 512 (putEntry (put b 0 512 (drop f (512 * i))) (16 * j) nr
      name) = putEntry f (16 * (32 * i + j)) nr name := by
  funext a
  by_cases ha : 512 * i ≤ a ∧ a < 512 * i + 512
  · rw [put_of_in ha, putEntry_sector (by omega)]
    congr 1
    omega
  · rw [put_of_out (by omega), putEntry_of_out (by omega)]

/-- **A NEW ENTRY** goes into the first free slot, or behind the end; nothing but
    the entry changes when its name has at most 11 characters. -/
theorem becomes_newEntry (hm : Made sb) (hsb : s.superOf ROOT_DEV_NR = some sb)
    (hr : AtRoot sb s root r) (hsize : r.fileSize.toNat < DIR_BYTES)
    (h : makeNewDirEntry root nr name s = .ok u t) :
    ∃ k free g, (if free = true then k < r.fileSize.toNat / 16 ∧
          numAt (imageIn sb s).dir k = 0
        else k = r.fileSize.toNat / 16) ∧
      (∀ j < k, numAt (imageIn sb s).dir j ≠ 0) ∧
      (name.length ≤ 11 → g = putEntry (imageIn sb s).dir (16 * k) nr name) ∧
      Becomes sb (s.updInode root (grown free))
        (((imageIn sb s).setDir g).setInode 1 (grown free r)) t := by
  have hplaced := placed_of_rootDir hm hr.dir
  obtain ⟨hstart, h16, -, h512⟩ := placed_numbers hplaced
  have hbytes : DIR_BYTES = 1048576 := rfl
  obtain ⟨i, j, free, b, g, v, hi, hj, -, hslot, hused, hv, hw⟩ :=
    run_makeNewDirEntry hr.entry h16 h512 (by omega) (by omega) h
  have hdir : 512 * r.sectStart.toNat = dirByte sb := by
    rw [hr.dir.start]
    rfl
  rw [hstart, hr.dev] at hslot hused hv
  rw [← Int.natCast_add, Int.toNat_natCast, Nat.mul_add, hdir] at hv
  have hnum : ∀ k, k < 65536 → dirEntry (s.disk ROOT_DEV_NR) r.sectStart.toNat k =
      numAt (imageIn sb s).dir k := by
    intro k hk
    rw [dirEntry_eq, hdir, numAt_dir (by omega)]
    rfl
  have hk : 32 * i + j ≤ r.fileSize.toNat / 16 := by
    split at hslot <;> omega
  have hinode : v.inodeTable root = grown free r := by
    rw [hv, ← hr.entry]
    exact updInode_self s (grown free)
  have hkeep : (grown free r).dev = ROOT_DEV_NR ∧
      (grown free r).nr = (1 : Nat) := by
    rw [grown, ← hr.dev, show ((1 : Nat) : Int) = ROOT_INODE_NR from rfl, ← hr.nr]
    split <;> exact ⟨rfl, rfl⟩
  have hsuper : v.superOf ROOT_DEV_NR = some sb := by
    rw [← hsb, hv]
    rfl
  -- the sector that is written back
  obtain ⟨x, hx⟩ : ∃ x, x = putEntry (put b 0 512 (drop (s.disk ROOT_DEV_NR)
    (dirByte sb + 512 * i))) (16 * j) nr name := ⟨_, rfl⟩
  have himage : imageIn sb v =
      (imageIn sb s).setDir (put (imageIn sb s).dir (512 * i) 512 x) := by
    rw [hv, imageIn, hx]
    dsimp only
    rw [Function.update_self, image_dir hm (by omega)]
    rfl
  have hshort : name.length ≤ 11 → put (imageIn sb s).dir (512 * i) 512 x =
      putEntry (imageIn sb s).dir (16 * (32 * i + j)) nr name := by
    intro hlen
    rw [← put_newEntry (b := b) hj hlen, hx]
    refine put_congr fun a ha => ?_
    rw [putEntry_apply, putEntry_apply]
    congr 2
    rw [put_of_in (by omega), put_of_in (by omega), drop, drop, Nat.sub_zero,
      dir_byte (by omega), drop, Nat.add_assoc]
  obtain ⟨htables, himage'⟩ := becomes_writeInode hm hsuper hinode hkeep.1
    hkeep.2 (by omega) (by omega) hw
  refine ⟨32 * i + j, free, _, ?_, fun l hl => ?_, hshort, ?_, ?_⟩
  · split at hslot
    · rename_i hfree
      rw [if_pos hfree, ← hnum _ (by omega)]
      exact ⟨by omega, hslot.1⟩
    · rename_i hfree
      rw [if_neg hfree]
      omega
  · rw [← hnum _ (by omega)]
    exact hused l hl
  · refine same_trans ?_ htables
    rw [hv]
    exact ⟨rfl, rfl, rfl, rfl, rfl⟩
  · rw [himage', himage]

/-- How many of the entries in front of `k` have a number. -/
def usedBefore (f : Nat → Byte) (k : Nat) : Nat :=
  Nat.count (fun j => numAt f j ≠ INVALID_INODE) k

theorem usedBefore_succ (f : Nat → Byte) (k : Nat) : usedBefore f (k + 1) =
    usedBefore f k + if numAt f k ≠ INVALID_INODE then 1 else 0 :=
  Nat.count_succ ..

/-- The loop on `j` stops at the first entry of the number, at the end of the
    sector or at that of the directory. -/
theorem scanEntries_cases (nr E : Int) {base : Nat}
    (hnum : ∀ l < 32, entryNr b (16 * l) = numAt f (base + l)) :
    ∀ (left : Nat) {j : Nat}, j + left = 32 → ((base + j : Nat) : Int) ≤ E →
      match scanEntries nr E b left j (base + j : Nat)
          (16 * usedBefore f (base + j) : Nat) with
      | .found k deNr deSize => j ≤ k ∧ k < 32 ∧ ((base + k : Nat) : Int) < E ∧
          numAt f (base + k) = nr ∧ deNr = (base + k + 1 : Nat) ∧
          deSize = (16 * usedBefore f (base + k) : Nat) ∧
          ∀ l, j ≤ l → l < k → numAt f (base + l) ≠ nr
      | .stop deNr deSize => (∀ l, j ≤ l → l < 32 → ((base + l : Nat) : Int) < E →
          numAt f (base + l) ≠ nr) ∧ (deNr = E + 1 ∧ E < (base + 32 : Nat) ∨
            deNr = (base + 32 : Nat) ∧ deNr ≤ E ∧
            deSize = (16 * usedBefore f (base + 32) : Nat)) := by
  intro left
  induction left with
  | zero =>
      intro j hj hle
      obtain rfl : j = 32 := by omega
      exact ⟨fun l h₁ h₂ => by omega, Or.inr ⟨rfl, hle, rfl⟩⟩
  | succ left ih =>
      intro j hj hle
      rw [scanEntries]
      by_cases hend : E < (base + j : Nat) + 1
      · rw [if_pos hend]
        exact ⟨fun l h₁ h₂ h₃ => by omega, Or.inl ⟨by omega, by omega⟩⟩
      rw [if_neg hend, hnum j (by omega)]
      by_cases hfound : numAt f (base + j) = nr
      · rw [if_pos hfound]
        exact ⟨Nat.le_refl _, by omega, by omega, hfound, by omega, rfl,
          fun l h₁ h₂ => by omega⟩
      rw [if_neg hfound]
      have hsize : (if numAt f (base + j) ≠ INVALID_INODE then
          ((16 * usedBefore f (base + j) : Nat) : Int) + 16
          else (16 * usedBefore f (base + j) : Nat)) =
          (16 * usedBefore f (base + (j + 1)) : Nat) := by
        rw [← Nat.add_assoc, usedBefore_succ]
        split <;> omega
      have hskip : ∀ k, (∀ l, j + 1 ≤ l → l < k → numAt f (base + l) ≠ nr) →
          ∀ l, j ≤ l → l < k → numAt f (base + l) ≠ nr := by
        intro k hk l h₁ h₂
        rcases Nat.lt_or_eq_of_le h₁ with hlt | rfl
        · exact hk l hlt h₂
        · exact hfound
      have hrest := ih (j := j + 1) (by omega) (by omega)
      rw [hsize, show ((base + j : Nat) : Int) + 1 = (base + (j + 1) : Nat) by
        omega]
      cases hs : scanEntries nr E b left (j + 1) (base + (j + 1) : Nat)
          (16 * usedBefore f (base + (j + 1)) : Nat) with
      | found k deNr deSize =>
          rw [hs] at hrest
          obtain ⟨h₁, h₂, h₃, h₄, h₅, h₆, h₇⟩ := hrest
          exact ⟨by omega, h₂, h₃, h₄, h₅, h₆, hskip k h₇⟩
      | stop deNr deSize =>
          rw [hs] at hrest
          refine ⟨fun l h₁ h₂ h₃ => ?_, hrest.2⟩
          rcases Nat.lt_or_eq_of_le h₁ with hlt | rfl
          · exact hrest.1 l hlt h₂ h₃
          · exact hfound

/-- The entries of a sector that was read. -/
theorem sector_numbers {dev : Int} {start i : Nat} (b : Nat → Byte)
    (hf : f = drop (s.disk dev) (512 * start)) :
    ∀ l < 32, entryNr (put b 0 (512 * 1) (drop (s.disk dev)
      (512 * ((start : Int) + i).toNat))) (16 * l) = numAt f (32 * i + l) := by
  intro l hl
  have hnat : ((start : Int) + i).toNat = start + i := by omega
  refine congrArg BitVec.toInt (word_congr fun k hk => ?_)
  rw [put_of_in (by omega), hf, drop, drop, hnat]
  exact congrArg (s.disk dev) (by omega)

/-- The scan for a number that is there ends, and finds it. -/
theorem scanSects_ok (dev : Int) {start total E : Nat}
    (haddr : start + total ≤ 4194304) (hE : E ≤ 32 * total) :
    ∀ {left i : Nat} {s : Fs}, i + left = total →
      f = drop (s.disk dev) (512 * start) →
      (∃ k, 32 * i ≤ k ∧ k < E ∧ numAt f k = nr) →
      ∃ r t, scanSects dev start nr E left i (32 * i : Nat)
        (16 * usedBefore f (32 * i) : Nat) s = .ok r t ∧ r.1 = true := by
  intro left
  induction left with
  | zero =>
      rintro i s hi - ⟨k, h₁, h₂, -⟩
      omega
  | succ left ih =>
      rintro i s hi hf ⟨k, h₁, h₂, hk⟩
      obtain ⟨c, hc⟩ : ∃ c, c = put s.fsbuf 0 (512 * 1)
        (drop (s.disk dev) (512 * ((start : Int) + i).toNat)) := ⟨_, rfl⟩
      have hrd : rdSects dev ((start : Int) + i) 1 s = .ok () { s with fsbuf := c } :=
        run_rdSects.mpr ⟨⟨by omega, by omega⟩, by rw [hc]⟩
      have hcases := scanEntries_cases nr E (hc ▸ sector_numbers s.fsbuf hf) 32
        (j := 0) (Nat.zero_add _) (by omega)
      rw [Nat.add_zero] at hcases
      rw [scanSects, run_bind_of hrd, run_get_bind]
      dsimp only
      cases hs : scanEntries nr E c 32 0 (32 * i : Nat)
          (16 * usedBefore f (32 * i) : Nat) with
      | found j deNr deSize =>
          have hwr : ∀ t : Fs, ∃ u, wrSects dev ((start : Int) + i) 1 t = .ok () u :=
            fun t => ⟨_, run_wrSects.mpr ⟨⟨by omega, by omega⟩, rfl⟩⟩
          have hset : ∀ (g : (Nat → Byte) → Nat → Byte) (t : Fs),
              setBuf g t = .ok () { t with fsbuf := g t.fsbuf } := fun _ _ => rfl
          dsimp only
          rw [run_bind_of (hset _ _)]
          obtain ⟨u, hu⟩ := hwr _
          rw [run_bind_of hu]
          exact ⟨(true, deNr, deSize), u, rfl, rfl⟩
      | stop deNr deSize =>
          rw [hs] at hcases
          obtain ⟨hnone, hstop⟩ := hcases
          -- the entry is behind this sector
          have hnext : 32 * (i + 1) ≤ k := by
            by_contra hlt
            have hother := hnone (k - 32 * i) (Nat.zero_le _) (by omega) (by omega)
            rw [show 32 * i + (k - 32 * i) = k by omega] at hother
            exact hother hk
          rcases hstop with ⟨-, hend⟩ | ⟨hdeNr, hdeE, hdeSize⟩
          · omega
          · dsimp only
            rw [if_neg (by omega), hdeNr, hdeSize,
              show 32 * i + 32 = 32 * (i + 1) by omega]
            exact ih (s := { s with fsbuf := c }) (by omega) hf ⟨k, hnext, h₂, hk⟩

/-- **THE SCAN** for a number that is found clears its first entry. -/
theorem scanSects_found {dev : Int} {start total E : Nat} :
    ∀ {left i : Nat} {s t : Fs} {r : Bool × Int × Int}, i + left = total →
      32 * i ≤ E → f = drop (s.disk dev) (512 * start) →
      scanSects dev start nr E left i (32 * i : Nat)
        (16 * usedBefore f (32 * i) : Nat) s = .ok r t → r.1 = true →
      ∃ k g, 32 * i ≤ k ∧ k < E ∧ k < 32 * total ∧ numAt f k = nr ∧
        r.2.1 = (k + 1 : Nat) ∧ r.2.2 = (16 * usedBefore f k : Nat) ∧
        (∀ l, 32 * i ≤ l → l < k → numAt f l ≠ nr) ∧
        t = { s with
          disk := Function.update s.disk dev
            (put (s.disk dev) (512 * start + 16 * k) 16 fun _ => 0)
          writes := s.writes ++ [(dev, start + k / 32, 1)]
          fsbuf := g } := by
  intro left
  induction left with
  | zero =>
      intro i s t r _ _ _ h hr
      cases h
      cases hr
  | succ left ih =>
      intro i s t r hi hle hf h hr
      rw [scanSects] at h
      obtain ⟨_, v, hrd, h⟩ := run_bind.mp h
      obtain ⟨haddr, rfl⟩ := run_rdSects.mp hrd
      rw [run_get_bind] at h
      obtain ⟨c, hc⟩ : ∃ c, c = put s.fsbuf 0 (512 * 1)
        (drop (s.disk dev) (512 * ((start : Int) + i).toNat)) := ⟨_, rfl⟩
      have hnat : ((start : Int) + i).toNat = start + i := by omega
      have hcases := scanEntries_cases nr E (hc ▸ sector_numbers s.fsbuf hf) 32
        (j := 0) (Nat.zero_add _) (by omega)
      dsimp only at h
      rw [← hc] at h
      rw [Nat.add_zero] at hcases
      cases hs : scanEntries nr E c 32 0 (32 * i : Nat)
          (16 * usedBefore f (32 * i) : Nat) with
      | found k deNr deSize =>
          rw [hs] at h hcases
          obtain ⟨-, hk, hkE, hnr, hdeNr, hdeSize, hfirst⟩ := hcases
          obtain ⟨_, w, hset, h⟩ := run_bind.mp h
          obtain rfl := run_setBuf.mp hset
          obtain ⟨_, x, hwr, h⟩ := run_bind.mp h
          obtain ⟨-, rfl⟩ := run_wrSects.mp hwr
          cases h
          refine ⟨32 * i + k, put c (16 * k) 16 fun _ => 0, by omega, by omega,
            by omega, hnr, hdeNr, hdeSize, fun l h₁ h₂ => ?_, ?_⟩
          · have h := hfirst (l - 32 * i) (Nat.zero_le _) (by omega)
            rwa [show 32 * i + (l - 32 * i) = l by omega] at h
          · rw [hnat] at hc ⊢
            rw [hc, put_block (by omega),
              show 512 * start + 16 * (32 * i + k) =
                512 * (start + i) + 16 * k by omega,
              show (32 * i + k) / 32 = i by omega]
      | stop deNr deSize =>
          rw [hs] at h hcases
          dsimp only at h
          obtain ⟨hnone, hstop⟩ := hcases
          rcases hstop with ⟨hend, -⟩ | ⟨hdeNr, hdeE, hdeSize⟩
          · rw [if_pos (by omega)] at h
            cases h
            cases hr
          · have hnext : 32 * (i + 1) ≤ E := by omega
            rw [if_neg (by omega), hdeNr, hdeSize,
              show 32 * i + 32 = 32 * (i + 1) by omega] at h
            obtain ⟨k, g, h₁, h₂, h₃, h₄, h₅, h₆, h₇, ht⟩ := ih
              (s := { s with fsbuf := c }) (by omega) hnext hf h hr
            refine ⟨k, g, by omega, h₂, h₃, h₄, h₅, h₆, fun l h₈ h₉ => ?_, ht⟩
            rcases Nat.lt_or_ge l (32 * (i + 1)) with hlt | hge
            · have h := hnone (l - 32 * i) (Nat.zero_le _) (by omega) (by omega)
              rwa [show 32 * i + (l - 32 * i) = l by omega] at h
            · exact h₇ l hge h₉

/-- The size of the directory when the entry `k` has been cleared: behind the
    last one the used ones are counted. -/
def sizeWithout (f : Nat → Byte) (size : BitVec 32) (k : Nat) : BitVec 32 :=
  if k + 1 = size.toNat / 16 then BitVec.ofNat 32 (16 * usedBefore f k)
  else size

theorem usedBefore_congr {f g : Nat → Byte} {k : Nat}
    (h : ∀ j < k, numAt f j = numAt g j) : usedBefore f k = usedBefore g k := by
  induction k with
  | zero => rw [usedBefore, usedBefore, Nat.count_zero, Nat.count_zero]
  | succ k ih =>
      rw [usedBefore_succ, usedBefore_succ, h k (Nat.lt_succ_self k),
        ih fun j hj => h j (by omega)]

/-- **AN ENTRY IS CLEARED**, the first of the number. -/
theorem becomes_clearEntry (hm : Made sb) (hsb : s.superOf ROOT_DEV_NR = some sb)
    (hr : AtRoot sb s root r) (h : clearDirectoryEntry root nr s = .ok u t) :
    ∃ k, k < r.fileSize.toNat / 16 ∧ numAt (imageIn sb s).dir k = nr ∧
      (∀ j < k, numAt (imageIn sb s).dir j ≠ nr) ∧
      Becomes sb
        (sized root (sizeWithout (imageIn sb s).dir r.fileSize k) s)
        (((imageIn sb s).setDir (put (imageIn sb s).dir (16 * k) 16
          fun _ => 0)).setInode 1 { r with
            fileSize := sizeWithout (imageIn sb s).dir r.fileSize k }) t := by
  have hplaced := placed_of_rootDir hm hr.dir
  obtain ⟨hstart, h16, -, h512⟩ := placed_numbers hplaced
  have hsize := hr.dir.size
  have hdir : 512 * r.sectStart.toNat = dirByte sb := by
    rw [hr.dir.start]
    rfl
  rw [clearDirectoryEntry, run_get_bind] at h
  rw [hr.entry, hstart, h16, h512, hr.dev, Int.toNat_natCast] at h
  obtain ⟨⟨found, deNr, deSize⟩, v, hscan, h⟩ := run_bind.mp h
  obtain ⟨_, _, hcheck, h⟩ := run_bind.mp h
  obtain ⟨hfound, rfl⟩ := run_check.mp hcheck
  obtain ⟨k, g, -, hk, -, hnr, hdeNr, hdeSize, hfirst, rfl⟩ :=
    scanSects_found (i := 0) (Nat.zero_add _) (Nat.zero_le _) rfl hscan hfound
  rw [hdir] at hnr hdeSize hfirst h
  have hnum : ∀ j ≤ k, numAt (drop (s.disk ROOT_DEV_NR) (dirByte sb)) j =
      numAt (imageIn sb s).dir j := by
    intro j hj
    have hbytes : DIR_BYTES = 1048576 := rfl
    exact (numAt_dir (by omega)).symm
  rw [hnum k (Nat.le_refl k)] at hnr
  rw [usedBefore_congr fun j hj => hnum j (Nat.le_of_lt hj)] at hdeSize
  refine ⟨k, hk, hnr, fun j hj => ?_, ?_⟩
  · rw [← hnum j (Nat.le_of_lt hj)]
    exact hfirst j (Nat.zero_le _) hj
  obtain ⟨v, hv⟩ : ∃ v : Fs, v = { s with
      disk := Function.update s.disk ROOT_DEV_NR
        (put (s.disk ROOT_DEV_NR) (dirByte sb + 16 * k) 16 fun _ => 0)
      writes := s.writes ++ [(ROOT_DEV_NR, r.sectStart.toNat + k / 32, 1)]
      fsbuf := g } := ⟨_, rfl⟩
  rw [← hv] at h
  have htables : SameTables s v := by
    rw [hv]
    exact ⟨rfl, rfl, rfl, rfl, rfl⟩
  have himage : imageIn sb v = (imageIn sb s).setDir
      (put (imageIn sb s).dir (16 * k) 16 fun _ => 0) := by
    have hbytes : DIR_BYTES = 1048576 := rfl
    rw [hv, imageIn]
    dsimp only
    rw [Function.update_self, image_dir hm (by omega)]
    rfl
  have hroot : v.inodeTable root = r := by rw [htables.inodes, hr.entry]
  by_cases hlast : k + 1 = r.fileSize.toNat / 16
  · rw [sizeWithout, if_pos hlast]
    rw [if_pos (by omega), show deSize = (16 * usedBefore (imageIn sb s).dir k :
      Nat) from hdeSize, BitVec.ofInt_natCast] at h
    obtain ⟨_, w, hmod, hw⟩ := run_bind.mp h
    obtain rfl := run_modify.mp hmod
    obtain ⟨ht, hi⟩ := becomes_update hm
      ((superOf_congr htables.supers).trans hsb) (f := fun p => { p with
        fileSize := BitVec.ofNat 32 (16 * usedBefore (imageIn sb s).dir k) })
      hroot hr.dev (n := 1) hr.nr (by omega) (by omega) hw
    rw [himage] at hi
    exact ⟨same_trans (same_updInode htables root _) ht, hi⟩
  · rw [sizeWithout, if_neg hlast]
    rw [if_neg (by omega)] at h
    cases h
    refine ⟨same_trans ?_ htables, ?_⟩
    · refine ⟨?_, rfl, rfl, rfl, rfl⟩
      rw [sized, ← hr.entry]
      exact (Function.update_eq_self ..).symm
    · rw [himage, setInode_self]
      exact hr.stored

end Directory

end KosDiskSteps
