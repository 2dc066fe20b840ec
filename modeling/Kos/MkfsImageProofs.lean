import Kos.FreshProofs
import Kos.SectorMapProofs

/-! # The image that `mkfs` makes

    The regions of a partition grow with it, and `cmd.tar` is at a fixed sector.
    The assertion of `create_cmd_dot_tar` (`task/fs/fs.c`) subtracts the sectors
    of the log from the size, without a look at whether there are as many.

    * `createSectorMap_run` and `createCmdDotTar_run` say which bits of the
      sector map are set, and that nothing outside it is written;
    * with the root directory in front of `cmd.tar` the whole of `mkfs` runs
      (`mkfs_disk`);
    * the image is well formed exactly for the sizes from the log on and before
      the one where the root directory gets to `cmd.tar`
      (`image_wellFormed_iff`). -/

namespace KosMkfsImage

open FlatMemory (Byte)
open Overlay
open BitMap (bit Marks marks_one marks_zero marks_trans)
open KosFs
open KosMkfs
open KosSectorMap
open KosInitFs
open KosFresh

/-! ## Layout -/

/-- Sectors in a row. -/
structure Extent where
  start : Nat
  len : Nat
  deriving DecidableEq, Repr

/-- One sector of an extent. -/
def Extent.Has (e : Extent) (sector : Nat) : Prop :=
  e.start ≤ sector ∧ sector < e.start + e.len

/-- No sector is in both. -/
def Extent.Apart (e e' : Extent) : Prop :=
  e.start + e.len ≤ e'.start ∨ e'.start + e'.len ≤ e.start

/-- The first sector of the inode array, as `create_inode_array` writes it. -/
def arrayStart (sb : SuperBlock) : Int :=
  (2 + sb.nrInodeMapSects + sb.nrSectMapSects).toInt

/-- The sectors of the files. -/
def dataArea (sb : SuperBlock) : Extent :=
  ⟨sb.nr1stDataSect.toNat, sb.nrSects.toNat - sb.nr1stDataSect.toNat⟩

/-- Boot sector, super block, inode map, sector map, inode array, data. -/
def regions (sb : SuperBlock) : List Extent :=
  [⟨0, 1⟩, ⟨1, 1⟩, ⟨2, sb.nrInodeMapSects.toNat⟩,
    ⟨(mapStart sb).toNat, sb.nrSectMapSects.toNat⟩,
    ⟨(arrayStart sb).toNat, sb.nrInodeSects.toNat⟩, dataArea sb]

/-- The sectors of an inode. -/
def extentOf (p : Inode) : Extent := ⟨p.sectStart.toNat, p.nrSects.toNat⟩

/-- The sectors of files in a new file system. -/
def extents (sb : SuperBlock) : List Extent :=
  [extentOf (rootInodeOf sb), extentOf tarInode]

/-- The bit of a sector. -/
def bitOf (sb : SuperBlock) (sector : Nat) : Nat :=
  sector - sb.nr1stDataSect.toNat + 1

/-- The bits of the map that have to be set. -/
def InUse (sb : SuperBlock) (y : Nat) : Prop :=
  y = 0 ∨ ∃ e ∈ extents sb, ∃ sector, e.Has sector ∧ y = bitOf sb sector

/-- The bits of the map are the ones in use. -/
def MapRight (sb : SuperBlock) (disk : Nat → Byte) : Prop :=
  ∀ y < mapSize sb, bit (mapOf sb disk) y = true ↔ InUse sb y

/-- `create_sector_map` and `create_cmd_dot_tar`, which fill the map. -/
def createMap (sb : SuperBlock) : FsM Unit := do
  createSectorMap sb
  createCmdDotTar sb

/-- What `mkfs` should leave on a partition of `sectCnt` sectors. -/
structure WellFormed (sectCnt : BitVec 32) (sb : SuperBlock) : Prop where
  consecutive : (regions sb).IsChain fun a b => a.start + a.len = b.start
  fits : sb.nr1stDataSect.toNat ≤ sb.nrSects.toNat
  has_bit : ∀ sector, (dataArea sb).Has sector → bitOf sb sector < mapSize sb
  in_data : ∀ e ∈ extents sb, ∀ sector, e.Has sector → (dataArea sb).Has sector
  apart : (extents sb).Pairwise Extent.Apart
  map_run : ∀ s, ∃ t, createMap sb s = .ok () t ∧
    MapRight sb (t.disk ROOT_DEV_NR) ∧
    ∀ x, x < mapByte sb ∨ mapByte sb + 512 * sb.nrSectMapSects.toNat ≤ x →
      t.disk ROOT_DEV_NR x = s.disk ROOT_DEV_NR x
  mkfs_run : ∀ s, ∃ t, mkfs sectCnt s = .ok () t ∧
    MapRight sb (t.disk ROOT_DEV_NR)

/-- The assertion of `create_cmd_dot_tar`. -/
def Accepts (sectCnt : BitVec 32) : Prop :=
  INSTALL_START_SECT + INSTALL_NR_SECTS < sectCnt - NR_SECTS_FOR_LOG

instance (sectCnt : BitVec 32) : Decidable (Accepts sectCnt) :=
  inferInstanceAs (Decidable (_ < _))

section Layout

variable {sb : SuperBlock} {sectCnt : BitVec 32} {e e' : Extent}

/-- The fields of the super block as numbers. -/
theorem superBlock_nat (sectCnt : BitVec 32) :
    (superBlock sectCnt ROOT_DEV_NR).nrSects.toNat = sectCnt.toNat ∧
    (superBlock sectCnt ROOT_DEV_NR).nrSectMapSects.toNat =
      sectCnt.toNat / 4096 + 1 ∧
    (superBlock sectCnt ROOT_DEV_NR).nr1stDataSect.toNat =
      260 + sectCnt.toNat / 4096 := by
  have hm := superBlock_made sectCnt ROOT_DEV_NR
  have hdiv : (sectCnt / SECTOR_BITS).toNat = sectCnt.toNat / 4096 :=
    BitVec.toNat_udiv
  have hlt := sectCnt.isLt
  have hsmap : (superBlock sectCnt ROOT_DEV_NR).nrSectMapSects.toNat =
      sectCnt.toNat / 4096 + 1 := by
    show (sectCnt / SECTOR_BITS + 1).toNat = _
    rw [BitVec.toNat_add, hdiv, show BitVec.toNat (1 : BitVec 32) = 1 from rfl]
    omega
  refine ⟨rfl, hsmap, ?_⟩
  rw [hm.first, hsmap]
  omega

/-- The sector map starts in sector 3. -/
theorem mapStart_made (hm : Made sb) : mapStart sb = 3 := by
  rw [mapStart, hm.imap]
  decide

/-- The inode array follows the sector map. -/
theorem arrayStart_made (hm : Made sb) :
    arrayStart sb = ((3 + sb.nrSectMapSects.toNat : Nat) : Int) := by
  have hsmap := hm.smap
  have h3 : ((2 : BitVec 32) + 1).toNat = 3 := by decide
  have hnat : (2 + 1 + sb.nrSectMapSects).toNat =
      3 + sb.nrSectMapSects.toNat := by
    rw [BitVec.toNat_add, h3]
    omega
  rw [arrayStart, hm.imap, BitVec.toInt_eq_toNat_of_lt (by rw [hnat]; omega),
    hnat]

/-- The assertion lets through the sizes that have room for `cmd.tar` and the
    log, and the ones that the subtraction makes large. -/
theorem accepts_iff : Accepts sectCnt ↔
    sectCnt.toNat < 2048 ∨ 36864 < sectCnt.toNat := by
  have hsum : (INSTALL_START_SECT + INSTALL_NR_SECTS).toNat = 34816 := by decide
  have hlog : NR_SECTS_FOR_LOG.toNat = 2048 := by decide
  have hlt := sectCnt.isLt
  rw [Accepts, BitVec.lt_def, BitVec.toNat_sub, hsum, hlog]
  omega

/-- The regions follow each other without a gap. -/
theorem regions_consecutive (sectCnt : BitVec 32) :
    (regions (superBlock sectCnt ROOT_DEV_NR)).IsChain
      fun a b => a.start + a.len = b.start := by
  obtain ⟨-, hsmap, hfirst⟩ := superBlock_nat sectCnt
  have hm := superBlock_made sectCnt ROOT_DEV_NR
  have himap : (superBlock sectCnt ROOT_DEV_NR).nrInodeMapSects.toNat = 1 := rfl
  have hinodes : (superBlock sectCnt ROOT_DEV_NR).nrInodeSects.toNat = 256 := by
    show (SECTOR_BITS * 32 / 512).toNat = 256
    decide
  have hmap : (mapStart (superBlock sectCnt ROOT_DEV_NR)).toNat = 3 := by
    rw [mapStart_made hm]
    rfl
  have harray : (arrayStart (superBlock sectCnt ROOT_DEV_NR)).toNat =
      3 + (sectCnt.toNat / 4096 + 1) := by
    rw [arrayStart_made hm, Int.toNat_natCast, hsmap]
  rw [regions, hmap, harray, himap, hinodes, dataArea, hsmap, hfirst]
  simp only [List.isChain_cons_cons, List.IsChain.singleton, and_true, true_and]
  omega

end Layout

/-! ## The sector map -/

section Map

variable {sb : SuperBlock} {s : Fs} {f : Nat → Byte}

/-- The first byte of the sector map. -/
theorem mapByte_made (hm : Made sb) : mapByte sb = 1536 := by
  rw [mapByte, mapStart_made hm]
  rfl

/-- A byte with all its bits set. -/
theorem marks_full (f : Nat → Byte) (j : Nat) :
    Marks f (Function.update f j 0xFF) (8 * j) 8 := by
  have hall : ∀ k < 8, (0xFF : Byte).getLsbD k = true := by decide
  intro y
  by_cases hj : y / 8 = j
  · subst hj
    rw [bit, Function.update_self, hall _ (Nat.mod_lt _ (by omega)),
      decide_eq_true (by omega), Bool.or_true]
  · rw [bit, Function.update_of_ne hj, ← bit, decide_eq_false (by omega),
      Bool.or_false]

/-- Bytes set to `0xFF` are bits set. -/
theorem marks_fill (f : Nat → Byte) (n : Nat) :
    Marks f ((List.range n).foldl (fun b i => Function.update b i 0xFF) f) 0
      (8 * n) := by
  induction n with
  | zero => exact marks_zero f 0
  | succ n ih =>
      rw [List.range_succ, List.foldl_append]
      refine marks_trans ih ?_
      rw [Nat.zero_add]
      exact marks_full _ n

/-- A write to the root device. -/
theorem wrSects_run {n : Int} (s : Fs) (count : Nat) (h : Addressed n) :
    ∃ t, wrSects ROOT_DEV_NR n count s = .ok () t ∧ t.fsbuf = s.fsbuf ∧
      t.disk ROOT_DEV_NR =
        put (s.disk ROOT_DEV_NR) (512 * n.toNat) (512 * count) s.fsbuf := by
  obtain ⟨t, ht⟩ : ∃ t : Fs, t = { s with
      disk := Function.update s.disk ROOT_DEV_NR
        (put (s.disk ROOT_DEV_NR) (512 * n.toNat) (512 * count) s.fsbuf)
      writes := s.writes ++ [(ROOT_DEV_NR, n.toNat, count)] } := ⟨_, rfl⟩
  refine ⟨t, run_wrSects.mpr ⟨h, ht⟩, ?_, ?_⟩
  · rw [ht]
  · rw [ht]
    dsimp only
    rw [Function.update_self]

/-- Sectors of the map from the second on are written with what is in the
    buffer. -/
theorem zeroSects_run (hm : Made sb) (hzero : ∀ k < 512, s.fsbuf k = 0) :
    ∀ n, n < 1048576 → ∃ t, (List.range n).forM
        (fun i => wrSects ROOT_DEV_NR (mapSect sb (i + 1 : Nat)) 1) s =
          .ok () t ∧ t.fsbuf = s.fsbuf ∧
      t.disk ROOT_DEV_NR = put (s.disk ROOT_DEV_NR) 2048 (512 * n) fun _ => 0 := by
  intro n
  induction n with
  | zero => exact fun _ => ⟨s, rfl, rfl, (put_zero _ _ _).symm⟩
  | succ n ih =>
      intro hn
      obtain ⟨t, hrun, hbuf, hdisk⟩ := ih (by omega)
      have hsect : mapSect sb (n + 1 : Nat) = ((4 + n : Nat) : Int) := by
        rw [mapSect_made hm (by omega)]
        omega
      have haddr : Addressed ((4 + n : Nat) : Int) := ⟨by omega, by omega⟩
      obtain ⟨u, hwr, hbuf', hdisk'⟩ := wrSects_run t 1 haddr
      refine ⟨u, ?_, hbuf'.trans hbuf, ?_⟩
      · rw [List.range_succ]
        refine (congrFun List.forM_append s).trans ((run_bind_of hrun).trans ?_)
        show (wrSects ROOT_DEV_NR (mapSect sb (n + 1 : Nat)) 1 >>= fun _ =>
          pure ()) t = _
        rw [hsect, run_bind_of hwr]
        rfl
      · rw [hdisk', hdisk, hbuf, Int.toNat_natCast,
          show 512 * (4 + n) = 2048 + 512 * n by omega,
          show 512 * (n + 1) = 512 * n + 512 * 1 by omega, ← put_put_append]
        exact put_congr fun k hk => hzero k hk

/-- **`create_sector_map`** sets the bits of the root directory. -/
theorem createSectorMap_run (hm : Made sb) (s : Fs) :
    ∃ t, createSectorMap sb s = .ok () t ∧
      (∀ y < mapSize sb, bit (mapOf sb (t.disk ROOT_DEV_NR)) y =
        decide (y < 2049)) ∧
      ∀ x, x < mapByte sb ∨ mapByte sb + 512 * sb.nrSectMapSects.toNat ≤ x →
        t.disk ROOT_DEV_NR x = s.disk ROOT_DEV_NR x := by
  have hsmap := hm.smap
  obtain ⟨b, hb⟩ : ∃ b, b = put s.fsbuf 0 512 fun _ => (0 : Byte) := ⟨_, rfl⟩
  obtain ⟨g, hg⟩ : ∃ g, g = (List.range 256).foldl
    (fun b i => Function.update b i 0xFF) b := ⟨_, rfl⟩
  obtain ⟨h, hh⟩ : ∃ h, h =
    Function.update g 256 (g 256 ||| (1 : Byte) <<< 0) := ⟨_, rfl⟩
  -- the buffer that is written to the first sector
  have hmarks : Marks b h 0 2049 := by
    have h₁ := marks_fill b 256
    rw [← hg] at h₁
    have h₂ := marks_one (f := g) (j := 256) (k := 0) (by omega)
    rw [← hh] at h₂
    exact marks_trans h₁ h₂
  have hclear : ∀ y < 4096, bit b y = false := by
    intro y hy
    rw [hb, bit, put_of_in (by omega)]
    exact BitVec.getLsbD_zero
  obtain ⟨s₁, hs₁⟩ : ∃ s₁ : Fs, s₁ = { s with
    disk := Function.update s.disk ROOT_DEV_NR
      (put (s.disk ROOT_DEV_NR) 1536 512 h)
    writes := s.writes ++ [(ROOT_DEV_NR, 3, 1)]
    fsbuf := put h 0 512 fun _ => 0 } := ⟨_, rfl⟩
  have hzero : ∀ k < 512, s₁.fsbuf k = 0 := by
    intro k hk
    rw [hs₁]
    dsimp only
    rw [put_of_in (by omega)]
  have hdisk₁ : s₁.disk ROOT_DEV_NR = put (s.disk ROOT_DEV_NR) 1536 512 h := by
    rw [hs₁]
    dsimp only
    rw [Function.update_self]
  obtain ⟨t, hrun, -, hdisk⟩ := zeroSects_run hm hzero
    (sb.nrSectMapSects.toNat - 1) (by omega)
  have hwr : wrSects ROOT_DEV_NR (mapSect sb 0) 1 { s with fsbuf := h } =
      .ok () { s with
        disk := Function.update s.disk ROOT_DEV_NR
          (put (s.disk ROOT_DEV_NR) 1536 512 h)
        writes := s.writes ++ [(ROOT_DEV_NR, 3, 1)]
        fsbuf := h } := by
    have hsect : mapSect sb 0 = 3 := mapSect_made hm (i := 0) (by omega)
    rw [hsect]
    exact run_wrSects.mpr ⟨by decide, rfl⟩
  have hfill : ∀ v s, fillBuf v s =
      .ok () { s with fsbuf := put s.fsbuf 0 512 fun _ => v } := fun v s => rfl
  refine ⟨t, ?_, ?_, ?_⟩
  · rw [createSectorMap, run_bind_of (hfill 0 s)]
    show ((List.range 256).forM (fun i => setBuf fun b =>
      Function.update b i 0xFF) >>= fun _ => _) _ = _
    rw [run_bind_of (forM_setBuf _ _ _)]
    show ((List.range 1).forM (orBit 256) >>= fun _ => _) _ = _
    have hor : (List.range 1).forM (orBit 256) { s with fsbuf := g } =
        .ok () { s with fsbuf := h } := by
      rw [hh]
      rfl
    dsimp only
    rw [← hb, ← hg, run_bind_of hor, run_bind_of hwr, run_bind_of (hfill 0 _),
      ← hs₁]
    exact hrun
  · intro y hy
    rw [mapSize] at hy
    rw [bit_mapOf, mapByte_made hm, hdisk, hdisk₁]
    by_cases hfirst : y < 4096
    · rw [BitMap.bit_put_of_out (by omega), BitMap.bit_put_of_in (by omega),
        show 8 * 1536 + y - 8 * 1536 = y by omega, hmarks, hclear y hfirst,
        Bool.false_or]
      exact decide_eq_decide.mpr (by omega)
    · rw [BitMap.bit_put_of_in (by omega), decide_eq_false (by omega)]
      exact BitVec.getLsbD_zero
  · intro x hx
    rw [mapByte_made hm] at hx
    rw [hdisk, put_of_out (by omega), hdisk₁, put_of_out (by omega)]

/-- **THE BITS OF `cmd.tar`** are set one after the other.  The sector of the map
    that is in the buffer counts as written. -/
theorem tarBits_run (hm : Made sb) : ∀ (left off cur : Nat) {s : Fs},
    off < 4096 → cur + left < 1048576 →
    ∃ (c : Nat) (t : Fs), tarBits sb left off cur s = .ok (c : Int) t ∧
      c < 1048576 ∧ Marks (overBuf sb ROOT_DEV_NR cur s)
        (overBuf sb ROOT_DEV_NR c t) (8 * mapByte sb + (4096 * cur + off))
        left := by
  intro left
  induction left with
  | zero =>
      intro off cur s _ hcur
      exact ⟨cur, s, rfl, hcur, marks_zero _ _⟩
  | succ left ih =>
      intro off cur s hoff hcur
      obtain ⟨s₁, hs₁⟩ : ∃ s₁ : Fs, s₁ = { s with
        fsbuf := Function.update s.fsbuf (off / 8)
          (s.fsbuf (off / 8) ||| (1 : Byte) <<< (off % 8)) } := ⟨_, rfl⟩
      have hor : orBit (off / 8) (off % 8) s = .ok () s₁ := by
        rw [hs₁]
        rfl
      have hmark : Marks (overBuf sb ROOT_DEV_NR cur s)
          (overBuf sb ROOT_DEV_NR cur s₁)
          (8 * mapByte sb + (4096 * cur + off)) 1 := by
        have hone := marks_one (f := s.fsbuf) (j := off / 8)
          (show off % 8 < 8 by omega)
        rw [show 8 * (off / 8) + off % 8 = off by omega] at hone
        rw [hs₁]
        exact over_marks sb ROOT_DEV_NR cur hone (by omega)
      rw [tarBits, if_neg (by omega), Int.toNat_natCast]
      by_cases hend : (off : Int) + 1 = 4096
      · -- the sector of the map is full: it is written, and the next one read
        have hsect : mapSect sb cur = ((3 + cur : Nat) : Int) :=
          mapSect_made hm (by omega)
        have hnext : mapSect sb ((cur : Int) + 1) =
            ((3 + (cur + 1) : Nat) : Int) :=
          mapSect_made hm (i := cur + 1) (by omega)
        obtain ⟨s₂, hwr, hbuf₂, hdisk₂⟩ := wrSects_run (n := (3 + cur : Nat)) s₁ 1
          ⟨by omega, by omega⟩
        obtain ⟨s₃, hs₃⟩ : ∃ s₃ : Fs, s₃ = { s₂ with
          fsbuf := put s₂.fsbuf 0 512
            (drop (s₂.disk ROOT_DEV_NR) (mapByte sb + 512 * (cur + 1))) } :=
          ⟨_, rfl⟩
        have hrd : rdSects ROOT_DEV_NR ((3 + (cur + 1) : Nat) : Int) 1 s₂ =
            .ok () s₃ := by
          have hbyte : mapByte sb + 512 * (cur + 1) =
              512 * (((3 + (cur + 1) : Nat) : Int)).toNat := by
            rw [mapByte_made hm]
            omega
          rw [hs₃, hbyte]
          exact run_rdSects.mpr ⟨⟨by omega, by omega⟩, rfl⟩
        have hover : overBuf sb ROOT_DEV_NR (cur + 1) s₃ =
            overBuf sb ROOT_DEV_NR cur s₁ := by
          rw [hs₃, over_read, hdisk₂, overBuf, mapByte_made hm,
            Int.toNat_natCast, show 512 * (3 + cur) = 1536 + 512 * cur by omega]
        obtain ⟨c, t, hrun, hc, hmarks⟩ := ih 0 (cur + 1) (s := s₃)
          (by omega) (by omega)
        refine ⟨c, t, ?_, hc, ?_⟩
        · rw [run_bind_of hor, if_pos hend, hsect, hnext, run_bind_of hwr,
            run_bind_of hrd]
          exact hrun
        · rw [hover] at hmarks
          rw [Nat.add_comm left 1]
          refine marks_trans hmark ?_
          rw [show 8 * mapByte sb + (4096 * cur + off) + 1 =
            8 * mapByte sb + (4096 * (cur + 1) + 0) by omega]
          exact hmarks
      · obtain ⟨c, t, hrun, hc, hmarks⟩ := ih (off + 1) cur (s := s₁)
          (by omega) (by omega)
        refine ⟨c, t, ?_, hc, ?_⟩
        · rw [run_bind_of hor, if_neg hend]
          exact hrun
        · rw [Nat.add_comm left 1]
          refine marks_trans hmark ?_
          rw [show 8 * mapByte sb + (4096 * cur + off) + 1 =
            8 * mapByte sb + (4096 * cur + (off + 1)) by omega]
          exact hmarks

/-- **`create_cmd_dot_tar`** sets the bits of `cmd.tar`, when the data begins
    before it. -/
theorem createCmdDotTar_run (hm : Made sb) (haccept : Accepts sb.nrSects)
    (hfirst : sb.nr1stDataSect.toNat ≤ 32768) (s : Fs) :
    ∃ t, createCmdDotTar sb s = .ok () t ∧
      Marks (s.disk ROOT_DEV_NR) (t.disk ROOT_DEV_NR)
        (8 * mapByte sb + (32768 - sb.nr1stDataSect.toNat + 1)) 2048 := by
  have hstart : INSTALL_START_SECT.toNat = 32768 := by decide
  -- the C code divides ints: the first bit is positive, so that is Nat
  -- division
  have hbits : (INSTALL_START_SECT - sb.nr1stDataSect + 1).toInt =
      ((32768 - sb.nr1stDataSect.toNat + 1 : Nat) : Int) := by
    have hnat : (INSTALL_START_SECT - sb.nr1stDataSect + 1).toNat =
        32768 - sb.nr1stDataSect.toNat + 1 := by
      rw [BitVec.toNat_add, BitVec.toNat_sub, hstart,
        show BitVec.toNat (1 : BitVec 32) = 1 from rfl]
      omega
    rw [BitVec.toInt_eq_toNat_of_lt (by rw [hnat]; omega), hnat]
  obtain ⟨B, hB⟩ : ∃ B, B = 32768 - sb.nr1stDataSect.toNat + 1 := ⟨_, rfl⟩
  rw [← hB] at hbits ⊢
  have hdiv : (B : Int).tdiv 4096 = ((B / 4096 : Nat) : Int) :=
    (Int.ofNat_tdiv B 4096).symm
  have hmod : (B : Int).tmod 4096 = ((B % 4096 : Nat) : Int) :=
    (Int.ofNat_tmod B 4096).symm
  have hsect : mapSect sb ((B / 4096 : Nat) : Int) =
      ((3 + B / 4096 : Nat) : Int) := mapSect_made hm (by omega)
  obtain ⟨s₁, hs₁⟩ : ∃ s₁ : Fs, s₁ = { s with
    fsbuf := put s.fsbuf 0 512
      (drop (s.disk ROOT_DEV_NR) (mapByte sb + 512 * (B / 4096))) } := ⟨_, rfl⟩
  have hrd : rdSects ROOT_DEV_NR ((3 + B / 4096 : Nat) : Int) 1 s = .ok () s₁ := by
    have hbyte : mapByte sb + 512 * (B / 4096) =
        512 * (((3 + B / 4096 : Nat) : Int)).toNat := by
      rw [mapByte_made hm]
      omega
    rw [hs₁, hbyte]
    exact run_rdSects.mpr ⟨⟨by omega, by omega⟩, rfl⟩
  -- the map with the buffer over the sector just read is the map itself
  have hover : overBuf sb ROOT_DEV_NR (B / 4096) s₁ = s.disk ROOT_DEV_NR := by
    rw [hs₁, over_read]
  obtain ⟨c, s₂, hrun, hc, hmarks⟩ := tarBits_run hm 2048 (B % 4096)
    (B / 4096) (s := s₁) (by omega) (by omega)
  have hlast : mapSect sb (c : Nat) = ((3 + c : Nat) : Int) :=
    mapSect_made hm (by omega)
  obtain ⟨t, hwr, -, hdisk⟩ := wrSects_run (n := (3 + c : Nat)) s₂ 1
    ⟨by omega, by omega⟩
  refine ⟨t, ?_, ?_⟩
  · have hcheck : check (INSTALL_START_SECT + INSTALL_NR_SECTS <
        sb.nrSects - NR_SECTS_FOR_LOG) s = .ok () s := run_check_of haccept
    rw [createCmdDotTar, run_bind_of hcheck, hbits, hdiv, hmod, hsect,
      run_bind_of hrd, show INSTALL_NR_SECTS.toNat = 2048 from rfl,
      run_bind_of hrun, hlast, hwr]
  · have hdisk' : t.disk ROOT_DEV_NR = overBuf sb ROOT_DEV_NR c s₂ := by
      rw [hdisk, overBuf, mapByte_made hm, Int.toNat_natCast,
        show 512 * (3 + c) = 1536 + 512 * c by omega]
    rw [hover] at hmarks
    rw [hdisk', show B = 4096 * (B / 4096) + B % 4096 by omega]
    exact hmarks

end Map

/-! ## The image -/

section Image

variable {sb : SuperBlock} {s : Fs} {y sector : Nat} {sectCnt : BitVec 32}

/-- The sectors of the two files. -/
theorem mem_extents (sb : SuperBlock) : (∃ e ∈ extents sb, e.Has sector) ↔
    sb.nr1stDataSect.toNat ≤ sector ∧
        sector < sb.nr1stDataSect.toNat + 2048 ∨
      32768 ≤ sector ∧ sector < 34816 := by
  have hroot : extentOf (rootInodeOf sb) = ⟨sb.nr1stDataSect.toNat, 2048⟩ := rfl
  have htar : extentOf tarInode = ⟨32768, 2048⟩ := by decide
  rw [extents, hroot, htar]
  simp only [List.mem_cons, List.not_mem_nil, or_false, exists_eq_or_imp,
    exists_eq_left, Extent.Has]

/-- The sectors in use on a new image. -/
theorem inUse_iff (hfirst : sb.nr1stDataSect.toNat ≤ 32768) : InUse sb y ↔
    y < 2049 ∨ 32769 - sb.nr1stDataSect.toNat ≤ y ∧
      y < 34817 - sb.nr1stDataSect.toNat := by
  have hswap : (∃ e ∈ extents sb, ∃ sector, e.Has sector ∧ y = bitOf sb sector) ↔
      ∃ sector, (∃ e ∈ extents sb, e.Has sector) ∧ y = bitOf sb sector := by
    constructor
    · rintro ⟨e, he, sector, hhas, hy⟩
      exact ⟨sector, ⟨e, he, hhas⟩, hy⟩
    · rintro ⟨sector, ⟨e, he, hhas⟩, hy⟩
      exact ⟨e, he, sector, hhas, hy⟩
  rw [InUse, hswap]
  constructor
  · rintro (rfl | ⟨sector, hhas, hy⟩)
    · exact Or.inl (by omega)
    · rw [mem_extents] at hhas
      rw [bitOf] at hy
      omega
  · intro hy
    by_cases hzero : y = 0
    · exact Or.inl hzero
    · refine Or.inr ⟨sb.nr1stDataSect.toNat + (y - 1), (mem_extents sb).mpr ?_, ?_⟩
      · omega
      · rw [bitOf]
        omega

/-- A write behind the sector map does not change it. -/
theorem mapRight_of_eq {f g : Nat → Byte} (hm : Made sb)
    (h : ∀ x < 1536 + 512 * sb.nrSectMapSects.toNat, g x = f x)
    (hright : MapRight sb f) : MapRight sb g := by
  intro y hy
  rw [← hright y hy, bit_mapOf, bit_mapOf, mapByte_made hm, bit, bit]
  rw [mapSize] at hy
  rw [h _ (by omega)]

/-- **THE MAP** is filled, and nothing but the map is written. -/
theorem createMap_run (hm : Made sb) (haccept : Accepts sb.nrSects)
    (hfirst : sb.nr1stDataSect.toNat ≤ 32768) (hsize : 36864 ≤ mapSize sb)
    (s : Fs) : ∃ t, createMap sb s = .ok () t ∧
      MapRight sb (t.disk ROOT_DEV_NR) ∧
      ∀ x, x < mapByte sb ∨ mapByte sb + 512 * sb.nrSectMapSects.toNat ≤ x →
        t.disk ROOT_DEV_NR x = s.disk ROOT_DEV_NR x := by
  obtain ⟨s₁, hrun₁, hbits, hout⟩ := createSectorMap_run hm s
  obtain ⟨t, hrun₂, hmarks⟩ := createCmdDotTar_run hm haccept hfirst s₁
  refine ⟨t, ?_, fun y hy => ?_, fun x hx => ?_⟩
  · rw [createMap, run_bind_of hrun₁, hrun₂]
  · rw [marks_mapOf hmarks, hbits y hy, inUse_iff hfirst, Bool.or_eq_true,
      decide_eq_true_eq, decide_eq_true_eq]
    omega
  · rw [mapSize] at hsize
    rw [BitMap.byte_of_marks hmarks (by omega), hout x hx]

/-- The super block is written in front of sector 2. -/
theorem createSuperBlock_run (sectCnt : BitVec 32) (s : Fs) :
    ∃ t, createSuperBlock sectCnt s =
        .ok (superBlock sectCnt ROOT_DEV_NR) t ∧
      ∀ x, 1024 ≤ x → t.disk ROOT_DEV_NR x = s.disk ROOT_DEV_NR x := by
  refine ⟨_, rfl, fun x hx => ?_⟩
  show Function.update s.disk ROOT_DEV_NR _ ROOT_DEV_NR x = _
  rw [Function.update_self]
  exact put_of_out (Or.inr hx)

/-- The first byte of the inode map has its bits, the others are zero. -/
theorem createInodeMap_run (s : Fs) : ∃ t, createInodeMap s = .ok () t ∧
    (∀ k < 512, t.disk ROOT_DEV_NR (1024 + k) = if k = 0 then 0x3F else 0) ∧
    ∀ x, x < 1024 ∨ 1536 ≤ x →
      t.disk ROOT_DEV_NR x = s.disk ROOT_DEV_NR x := by
  obtain ⟨b, hb⟩ : ∃ b, b = put s.fsbuf 0 512 fun _ => (0 : Byte) := ⟨_, rfl⟩
  obtain ⟨g, hg⟩ : ∃ g, g = (List.range 6).foldl
    (fun b k => Function.update b 0 (b 0 ||| (1 : Byte) <<< k)) b := ⟨_, rfl⟩
  have hbyte : g 0 = 0x3F := by
    have hzero : b 0 = 0 := by
      rw [hb, put_of_in (by omega)]
    have hset : g 0 = ((((((b 0 ||| (1 : Byte) <<< 0) ||| (1 : Byte) <<< 1) |||
        (1 : Byte) <<< 2) ||| (1 : Byte) <<< 3) ||| (1 : Byte) <<< 4) |||
        (1 : Byte) <<< 5) := by
      rw [hg]
      rfl
    rw [hset, hzero]
    decide
  have hother : ∀ k, k ≠ 0 → g k = b k := by
    intro k hk
    rw [hg]
    show Function.update (Function.update (Function.update (Function.update
      (Function.update (Function.update b 0 _) 0 _) 0 _) 0 _) 0 _) 0 _ k = _
    simp only [Function.update_of_ne hk]
  have hfill : fillBuf 0 s = .ok () { s with fsbuf := b } := by
    rw [hb]
    rfl
  have hfor : (List.range (NR_CONSOLES + 3)).forM (orBit 0)
      { s with fsbuf := b } = .ok () { s with fsbuf := g } := by
    rw [hg]
    exact forM_setBuf _ _ _
  obtain ⟨t, hwr, -, hdisk⟩ :=
    wrSects_run (n := 2) { s with fsbuf := g } 1 (by decide)
  refine ⟨t, ?_, fun k hk => ?_, fun x hx => ?_⟩
  · rw [createInodeMap, run_bind_of hfill, run_bind_of hfor, run_get_bind,
      run_bind_of (run_check_of hbyte), hwr]
  · rw [hdisk, show 512 * (2 : Int).toNat = 1024 from rfl, put_at hk]
    by_cases hk0 : k = 0
    · rw [if_pos hk0, hk0]
      exact hbyte
    · rw [if_neg hk0]
      refine (hother k hk0).trans ?_
      rw [hb, put_of_in (by omega)]
  · rw [hdisk]
    exact put_of_out hx

/-- What is stored in a buffer does not depend on the other bytes of it. -/
theorem foldl_at {α : Type} {f : α → (Nat → Byte) → Nat → Byte} {k : Nat}
    (hf : ∀ a b b', b k = b' k → f a b k = f a b' k) (l : List α)
    {b b' : Nat → Byte} (h : b k = b' k) :
    l.foldl (fun b a => f a b) b k = l.foldl (fun b a => f a b) b' k := by
  induction l generalizing b b' with
  | nil => exact h
  | cons a l ih => exact ih (hf a b b' h)

/-- The functions after the map make up a sector and write it behind the map. -/
theorem madeSector_run {α : Type} {n : Nat} {f : α → (Nat → Byte) → Nat → Byte}
    (hf : ∀ k a b b', b k = b' k → f a b k = f a b' k) (l : List α)
    (hn : n < 4194304) (s : Fs) :
    ∃ t, (do
        fillBuf 0
        l.forM fun a => setBuf (f a)
        wrSects ROOT_DEV_NR (n : Nat) 1) s = .ok () t ∧
      (∀ k < 512, t.disk ROOT_DEV_NR (512 * n + k) =
        l.foldl (fun b a => f a b) (fun _ => 0) k) ∧
      ∀ x, x < 512 * n ∨ 512 * n + 512 ≤ x →
        t.disk ROOT_DEV_NR x = s.disk ROOT_DEV_NR x := by
  obtain ⟨b, hb⟩ : ∃ b, b = put s.fsbuf 0 512 fun _ => (0 : Byte) := ⟨_, rfl⟩
  have hfill : fillBuf 0 s = .ok () { s with fsbuf := b } := by
    rw [hb]
    rfl
  have hfor := forM_setBuf f l { s with fsbuf := b }
  obtain ⟨t, hwr, -, hdisk⟩ := wrSects_run
    (n := (n : Nat)) { s with fsbuf := l.foldl (fun b a => f a b) b } 1
    ⟨by omega, by omega⟩
  refine ⟨t, ?_, fun k hk => ?_, fun x hx => ?_⟩
  · rw [run_bind_of hfill, run_bind_of hfor, hwr]
  · rw [hdisk, Int.toNat_natCast, put_at hk]
    refine foldl_at (hf k) l ?_
    rw [hb, put_of_in (by omega)]
  · rw [hdisk, Int.toNat_natCast, put_of_out hx]

/-- The inode array is written into its first sector. -/
theorem createInodeArray_run (hm : Made sb) (s : Fs) :
    ∃ t, createInodeArray sb s = .ok () t ∧
      (∀ k < 512, t.disk ROOT_DEV_NR (arrayByte sb + k) = inodeBytes sb k) ∧
      ∀ x, x < arrayByte sb ∨ arrayByte sb + 512 ≤ x →
        t.disk ROOT_DEV_NR x = s.disk ROOT_DEV_NR x := by
  have hsmap := hm.smap
  have hsect : (2 + sb.nrInodeMapSects + sb.nrSectMapSects).toInt =
      ((3 + sb.nrSectMapSects.toNat : Nat) : Int) := arrayStart_made hm
  have hfields : ∀ (k : Nat) (p : Inode × Nat) (b b' : Nat → Byte),
      b k = b' k → putInodeFields b (32 * p.2) p.1 k =
        putInodeFields b' (32 * p.2) p.1 k := by
    intro k p b b' h
    rw [putInodeFields_eq, putInodeFields_eq, put, put, h]
  obtain ⟨t, hrun, hbytes, hsame⟩ := madeSector_run hfields (newInodes sb).zipIdx
    (n := 3 + sb.nrSectMapSects.toNat) (by omega) s
  refine ⟨t, ?_, hbytes, hsame⟩
  rw [createInodeArray, hsect]
  exact hrun

/-- The directory is written into its first sector. -/
theorem createRootDirectory_run (hm : Made sb) (s : Fs) :
    ∃ t, createRootDirectory sb s = .ok () t ∧
      (∀ k < 512, t.disk ROOT_DEV_NR (dirByte sb + k) = entryBytes k) ∧
      ∀ x, x < dirByte sb ∨ dirByte sb + 512 ≤ x →
        t.disk ROOT_DEV_NR x = s.disk ROOT_DEV_NR x := by
  have hsmap := hm.smap
  have hsect : sb.nr1stDataSect.toInt = (sb.nr1stDataSect.toNat : Int) :=
    BitVec.toInt_eq_toNat_of_lt (by rw [hm.first]; omega)
  have hentry : ∀ (k : Nat) (p : (Int × List Byte) × Nat) (b b' : Nat → Byte),
      b k = b' k → KosOpenFile.putEntry b (16 * p.2) p.1.1 p.1.2 k =
        KosOpenFile.putEntry b' (16 * p.2) p.1.1 p.1.2 k := by
    intro k p b b' h
    rw [KosOpenFile.putEntry_apply, KosOpenFile.putEntry_apply, h]
  obtain ⟨t, hrun, hbytes, hsame⟩ := madeSector_run hentry newEntries.zipIdx
    (n := sb.nr1stDataSect.toNat) (by rw [hm.first]; omega) s
  refine ⟨t, ?_, hbytes, hsame⟩
  rw [createRootDirectory, hsect]
  exact hrun

/-- The regions behind the boot sector and the super block. -/
structure NewDisk (sb : SuperBlock) (f : Nat → Byte) : Prop where
  inodeMap : ∀ k < 512, f (1024 + k) = if k = 0 then 0x3F else 0
  sectMap : MapRight sb f
  inodes : ∀ k < 512, f (arrayByte sb + k) = inodeBytes sb k
  entries : ∀ k < 512, f (dirByte sb + k) = entryBytes k

/-- **`mkfs`** runs, what each function has written stays, the super block too,
    and nothing is written behind the first sector of the root directory. -/
theorem mkfs_run (haccept : Accepts sectCnt) (hlog : 2048 ≤ sectCnt.toNat)
    (hfirst : sectCnt.toNat < 124768256) (s : Fs) :
    ∃ t, mkfs sectCnt s = .ok () t ∧
      NewDisk (superBlock sectCnt ROOT_DEV_NR) (t.disk ROOT_DEV_NR) ∧
      superAt (drop (t.disk ROOT_DEV_NR) 512) ROOT_DEV_NR =
        superBlock sectCnt ROOT_DEV_NR ∧
      ∀ x, dirByte (superBlock sectCnt ROOT_DEV_NR) + 512 ≤ x →
        t.disk ROOT_DEV_NR x = s.disk ROOT_DEV_NR x := by
  have hm := superBlock_made sectCnt ROOT_DEV_NR
  obtain ⟨hsects, hsmap, hdata⟩ := superBlock_nat sectCnt
  have hlarge := accepts_iff.mp haccept
  obtain ⟨sb, hsb⟩ : ∃ sb, superBlock sectCnt ROOT_DEV_NR = sb := ⟨_, rfl⟩
  obtain ⟨s₁, hsuper, hsame₁⟩ := createSuperBlock_run sectCnt s
  obtain ⟨s₂, himap, hbytes₂, hsame₂⟩ := createInodeMap_run s₁
  have hread := (createSuperBlock_super hsuper).2
  rw [hsb] at hm hsects hsmap hdata hsuper hread ⊢
  have haccept' : Accepts sb.nrSects := by
    rw [← hsb]
    exact haccept
  obtain ⟨s₃, hmap, hright, hsame₃⟩ := createMap_run hm haccept' (by omega)
    (by rw [mapSize]; omega) s₂
  obtain ⟨_, s', hsmap', htar⟩ := run_bind.mp hmap
  obtain ⟨s₄, harray, hbytes₄, hsame₄⟩ := createInodeArray_run hm s₃
  obtain ⟨t, hdir, hbytes, hsame⟩ := createRootDirectory_run hm s₄
  -- the regions follow each other
  have hstart : arrayByte sb = 1536 + 512 * sb.nrSectMapSects.toNat := by
    rw [arrayByte]
    omega
  have hnext : arrayByte sb + 512 ≤ dirByte sb := by
    rw [hstart, dirByte]
    omega
  have hmapByte := mapByte_made hm
  refine ⟨t, ?_, ⟨fun k hk => ?_, mapRight_of_eq hm (fun x hx => ?_) hright,
    fun k hk => ?_, hbytes⟩, ?_, fun x hx => ?_⟩
  · rw [mkfs, run_bind_of hsuper, run_bind_of himap, run_bind_of hsmap',
      run_bind_of htar, run_bind_of harray, hdir]
  · rw [hsame _ (by omega), hsame₄ _ (by omega), hsame₃ _ (by omega), hbytes₂ k hk]
  · rw [hsame x (by omega), hsame₄ x (by omega)]
  · rw [hsame _ (by omega), hbytes₄ k hk]
  · rw [← hread]
    refine superAt_congr _ fun y hy => ?_
    rw [drop, drop, hsame _ (by omega), hsame₄ _ (by omega), hsame₃ _ (by omega),
      hsame₂ _ (by omega)]
  · rw [hsame x (by omega), hsame₄ x (by omega), hsame₃ x (by omega),
      hsame₂ x (by omega), hsame₁ x (by omega)]

/-- `mkfs` returns with the disk it is to make. -/
theorem mkfs_disk (haccept : Accepts sectCnt) (hlog : 2048 ≤ sectCnt.toNat)
    (hfirst : sectCnt.toNat < 124768256) (s : Fs) :
    ∃ t, mkfs sectCnt s = .ok () t ∧
      NewDisk (superBlock sectCnt ROOT_DEV_NR) (t.disk ROOT_DEV_NR) := by
  obtain ⟨t, hrun, hdisk, -⟩ := mkfs_run haccept hlog hfirst s
  exact ⟨t, hrun, hdisk⟩

/-- **A WELL-FORMED IMAGE** is made of the partitions that have the sectors of
    the log, and whose root directory ends before `cmd.tar` begins. -/
theorem image_wellFormed_iff (haccept : Accepts sectCnt) :
    WellFormed sectCnt (superBlock sectCnt ROOT_DEV_NR) ↔
      2048 ≤ sectCnt.toNat ∧ sectCnt.toNat < 124768256 := by
  have hm := superBlock_made sectCnt ROOT_DEV_NR
  obtain ⟨hsects, hsmap, hdata⟩ := superBlock_nat sectCnt
  have hlarge := accepts_iff.mp haccept
  have hlt := sectCnt.isLt
  obtain ⟨sb, hsb⟩ : ∃ sb, superBlock sectCnt ROOT_DEV_NR = sb := ⟨_, rfl⟩
  have hchain := regions_consecutive sectCnt
  rw [hsb] at hm hsects hsmap hdata hchain ⊢
  have hroot : extentOf (rootInodeOf sb) = ⟨sb.nr1stDataSect.toNat, 2048⟩ := rfl
  have htar : extentOf tarInode = ⟨32768, 2048⟩ := by decide
  constructor
  · intro h
    -- the last sector of `cmd.tar` is in the data, and the extents are apart
    have hlast := (h.in_data _ (List.mem_cons_of_mem _ List.mem_cons_self) 34815
      (by rw [htar]; exact ⟨by decide, by decide⟩)).2
    have hfirst := (h.in_data _ (List.mem_cons_of_mem _ List.mem_cons_self) 32768
      (by rw [htar]; exact ⟨by decide, by decide⟩)).1
    have hapart := List.rel_of_pairwise_cons h.apart (List.mem_cons_self)
    rw [hroot, htar, Extent.Apart] at hapart
    rw [dataArea] at hlast hfirst
    dsimp only at hlast hfirst hapart
    omega
  · rintro ⟨hlog, hfirst⟩
    have haccept' : Accepts sb.nrSects := by
      rw [← hsb]
      exact haccept
    refine ⟨hchain, by omega, fun sector hs => ?_, fun e he sector hs => ?_, ?_,
      createMap_run hm haccept' (by omega) (by rw [mapSize]; omega), ?_⟩
    · rw [dataArea, Extent.Has] at hs
      dsimp only at hs
      rw [bitOf, mapSize]
      omega
    · have hmem := (mem_extents sb).mp ⟨e, he, hs⟩
      rw [dataArea, Extent.Has]
      dsimp only
      omega
    · rw [extents, hroot, htar]
      refine List.pairwise_pair.mpr (Or.inl ?_)
      show sb.nr1stDataSect.toNat + 2048 ≤ 32768
      omega
    · intro s
      obtain ⟨t, hrun, hdisk⟩ := mkfs_disk haccept hlog hfirst s
      rw [← hsb]
      exact ⟨t, hrun, hdisk.sectMap⟩

end Image

/-- The partition of the root device: 2 ^ 18 sectors. -/
theorem image_wellFormed_small :
    WellFormed 0x40000 (superBlock 0x40000 ROOT_DEV_NR) :=
  (image_wellFormed_iff (by decide)).mpr ⟨by decide, by decide⟩

/-- On 64 gigabytes `cmd.tar` begins before the data does. -/
theorem image_large_not_wellFormed :
    ¬ ∀ sectCnt : BitVec 32, Accepts sectCnt →
      WellFormed sectCnt (superBlock sectCnt ROOT_DEV_NR) := by
  intro hall
  have h := hall 0x8000000 (by decide)
  have htar : extentOf tarInode = ⟨32768, 2048⟩ := by decide
  have hfirst := (h.in_data _ (List.mem_cons_of_mem _ List.mem_cons_self) 32768
    (by rw [htar]; exact ⟨by decide, by decide⟩)).1
  exact absurd hfirst (by decide)

end KosMkfsImage
