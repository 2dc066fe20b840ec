import Kos.MkfsProofs
import Kos.OpenFileProofs

/-! # Removing files

    `task/fs/unlink.c`.  The bits of a file in the sector map are cleared in
    three parts: those of the first byte, whole bytes, and those of the last
    byte; between the parts the next sector of the map may be read.

    * `Cleared` is what clearing bits comes to, on the device with the buffer
      in its place; it composes over the three parts (`cleared_trans`);
    * clearing undoes an allocation (`free_undoes_alloc`). -/

namespace KosUnlink

open Overlay
open BitMap
open KosFs
open KosMkfs (Made superBlock_made first_entry)
open KosFileNames
open KosOpenFile (Slot)
open KosSectorMap

/-! ## The inode map -/

/-- The assertion on a bit, and its clearing. -/
def clearBit (j k : Nat) : FsM Unit := do
  let s ← get
  check ((s.fsbuf j).getLsbD k = true)
  setBuf fun b => Function.update b j (b j &&& ~~~((1 : Byte) <<< k))

/-- `clear_inode_map_bit`; a negative number has no byte. -/
def clearInodeMapBit (dev nr : Int) : FsM Unit := do
  check (nr.tdiv 8 < 512)
  rdSects dev 2 1
  if nr < 0 then throw .fault
  else do
    clearBit (nr.toNat / 8) (nr.toNat % 8)
    wrSects dev 2 1

/-! ## The sector map -/

/-- The loop over the first byte, with `8 - bit_idx` rounds left; the result is
    `bits_occupied`. -/
def clearBits (j : Nat) : Nat → Nat → Int → FsM Int
  | 0, _, bits => pure bits
  | left + 1, k, bits =>
      if bits = 0 then pure bits
      else do
        clearBit j k
        clearBits j left (k + 1) (bits - 1)

/-- At the end of a sector of the map the next one is read: `sect_nr` and the
    byte. -/
def nextSect (dev sect : Int) (idx : Nat) : FsM (Int × Nat) :=
  if idx = 512 then do
    wrSects dev sect 1
    rdSects dev (sect + 1) 1
    pure (sect + 1, 0)
  else pure (sect, idx)

/-- The loop over whole bytes: `sect_nr`, the byte and `bits_occupied`. -/
def clearBytes (dev : Int) : Nat → Int → Nat → Int → FsM (Int × Nat × Int)
  | 0, sect, idx, bits => pure (sect, idx, bits)
  | left + 1, sect, idx, bits => do
      let r ← nextSect dev sect idx
      let s ← get
      check (s.fsbuf r.2 = 0xFF)
      setBuf fun b => Function.update b r.2 0
      clearBytes dev left r.1 (r.2 + 1) (bits - 8)

/-- `~((unsigned char)(~0) << bits_occupied)`. -/
def lowBits (n : Nat) : Byte := ~~~((0xFF : Byte) <<< n)

/-- The last byte; a shift by a negative number has no meaning. -/
def clearLast (dev sect : Int) (idx : Nat) (bits : Int) : FsM Unit := do
  let r ← nextSect dev sect idx
  if bits < 0 then throw .fault
  else do
    let s ← get
    check (s.fsbuf r.2 &&& lowBits bits.toNat = lowBits bits.toNat)
    setBuf fun b =>
      Function.update b r.2 (b r.2 &&& (0xFF : Byte) <<< bits.toNat)
    wrSects dev r.1 1

/-- `clear_sector_map_bits`; a negative bit has no byte. -/
def clearSectorMapBits (i : Fin NR_INODE) : FsM Unit := do
  let s ← get
  let p := s.inodeTable i
  let sb ← getSuperBlock p.dev
  let startBit := (p.sectStart - sb.nr1stDataSect + 1).toInt
  let startByte := startBit.tdiv 8
  let bits := p.nrSects.toInt
  let byteCnt := (bits - (8 - startBit.tmod 8)).tdiv 8
  let sect := (2 + sb.nrInodeMapSects +
    BitVec.ofInt 32 (startByte.tdiv 512)).toInt
  rdSects p.dev sect 1
  if startBit < 0 then throw .fault
  else do
    let j := startByte.toNat % 512
    let k := startBit.toNat % 8
    let bits ← clearBits j (8 - k) k bits
    let r ← clearBytes p.dev byteCnt.toNat sect (j + 1) bits
    clearLast p.dev r.1 r.2.1 r.2.2

/-! ## The inode and the directory -/

/-- `clear_inode_fields`. -/
def clearInodeFields (i : Fin NR_INODE) : FsM Unit := do
  modify fun s => s.updInode i fun p => { p with
    fileType := 0, fileSize := 0, sectStart := 0, nrSects := 0 }
  writeInode i
  putInode i

/-- Where the loop over the entries of a sector stops, with `de_nr` and
    `de_size`: at the entry of the number, or not. -/
inductive Scan where
  | found (j : Nat) (deNr deSize : Int)
  | stop (deNr deSize : Int)

/-- The loop on `j`, with `left` entries of the sector left. -/
def scanEntries (nr nrDirEntries : Int) (b : Nat → Byte) :
    Nat → Nat → Int → Int → Scan
  | 0, _, deNr, deSize => .stop deNr deSize
  | left + 1, j, deNr, deSize =>
      if nrDirEntries < deNr + 1 then .stop (deNr + 1) deSize
      else if entryNr b (16 * j) = nr then .found j (deNr + 1) deSize
      else
        scanEntries nr nrDirEntries b left (j + 1) (deNr + 1)
          (if entryNr b (16 * j) ≠ INVALID_INODE then deSize + 16 else deSize)

/-- The loop on `i`, with `left` sectors left: `de_found`, `de_nr` and
    `de_size`. -/
def scanSects (dev sect0 nr nrDirEntries : Int) :
    Nat → Nat → Int → Int → FsM (Bool × Int × Int)
  | 0, _, deNr, deSize => pure (false, deNr, deSize)
  | left + 1, i, deNr, deSize => do
      rdSects dev (sect0 + i) 1
      let s ← get
      match scanEntries nr nrDirEntries s.fsbuf 32 0 deNr deSize with
      | .found j deNr deSize => do
          setBuf fun b => put b (16 * j) 16 fun _ => 0
          wrSects dev (sect0 + i) 1
          pure (true, deNr, deSize)
      | .stop deNr deSize =>
          if nrDirEntries < deNr then pure (false, deNr, deSize)
          else scanSects dev sect0 nr nrDirEntries left (i + 1) deNr deSize

/-- `clear_directory_entry`. -/
def clearDirectoryEntry (root : Fin NR_INODE) (nr : Int) : FsM Unit := do
  let s ← get
  let p := s.inodeTable root
  let nrRootDirSects := ((p.fileSize + 512) / 512).toInt
  let nrDirEntries := (p.fileSize / 16).toInt
  let r ← scanSects p.dev p.sectStart.toInt nr nrDirEntries
    nrRootDirSects.toNat 0 0 0
  check (r.1 = true)
  if r.2.1 = nrDirEntries then do
    modify fun s => s.updInode root fun p => { p with
      fileSize := BitVec.ofInt 32 r.2.2 }
    writeInode root
  else pure ()

/-! ## `do_unlink` -/

/-- The part of `do_unlink` behind the search. -/
def unlinkInode (path : List Byte) (nr : Int) : FsM Int :=
  match getFileName path with
  | none => pure (-1)
  | some _ => do
      let s ← get
      let root := s.rootInode
      let p ← getFileInode (s.inodeTable root).dev nr
      match p with
      | none => throw .fault
      | some i => do
          let s ← get
          if (s.inodeTable i).fileType ≠ TYPE_REGULAR then pure (-1)
          else if 1 < (s.inodeTable i).cnt then pure (-1)
          else do
            clearInodeMapBit (s.inodeTable i).dev nr
            clearSectorMapBits i
            clearInodeFields i
            clearDirectoryEntry root nr
            pure 0

/-- `do_unlink`, with the characters that were copied from PATHNAME. -/
def doUnlink (pathname : List Byte) : FsM Int := do
  check (pathname.length < MAX_PATH)
  let path := pathname.takeWhile (· ≠ 0)
  if path = [slash] then pure (-1)
  else do
    let nr ← getFileInodeNr path
    if nr = INVALID_INODE then pure (-1)
    else unlinkInode path nr

/-! ## Clearing the bits of a run -/

/-- The bits of the sector map, with the buffer in the place of sector `i`. -/
abbrev mapBits (sb : SuperBlock) (dev : Int) (i : Nat) (s : Fs) : Nat → Byte :=
  mapOf sb (overBuf sb dev i s)

/-- The `n` bits of the map from `x` on are cleared; the buffer holds sector `i`
    before and sector `i'` behind. -/
structure Cleared (sb : SuperBlock) (dev : Int) (i : Nat) (s : Fs) (i' : Nat)
    (s' : Fs) (x n : Nat) : Prop where
  bits : Clears (overBuf sb dev i s) (overBuf sb dev i' s')
    (8 * mapByte sb + x) n
  devices : ∀ d, d ≠ dev → s'.disk d = s.disk d

section Clear

variable {sb : SuperBlock} {dev : Int} {i i' i'' j k x m n N idx left e : Nat}
  {s s' s'' : Fs} {g : Nat → Byte}

theorem cleared_trans (h₁ : Cleared sb dev i s i' s' x n)
    (h₂ : Cleared sb dev i' s' i'' s'' (x + n) m) :
    Cleared sb dev i s i'' s'' x (n + m) := by
  refine ⟨clears_trans h₁.bits ?_, fun d hd => ?_⟩
  · rw [Nat.add_assoc]
    exact h₂.bits
  · rw [h₂.devices d hd, h₁.devices d hd]

theorem cleared_zero (s : Fs) (x : Nat) : Cleared sb dev i s i s x 0 :=
  ⟨clears_zero _ _, fun _ _ => rfl⟩

theorem clears_mapOf {f f' : Nat → Byte}
    (h : Clears f f' (8 * mapByte sb + x) n) :
    Clears (mapOf sb f) (mapOf sb f') x n := by
  intro y
  rw [bit_mapOf, bit_mapOf, h]
  congr 2
  exact decide_eq_decide.mpr (by omega)

/-- What is still to be cleared is still set. -/
theorem allSet_cleared (h : Cleared sb dev i s i' s' x n)
    (hs : AllSet (mapBits sb dev i s) x e) :
    AllSet (mapBits sb dev i' s') (x + n) e :=
  allSet_of_clears (clears_mapOf h.bits) hs

variable (sb dev i s) in
/-- The buffer changes. -/
theorem buf_cleared (h : Clears s.fsbuf g x n) (hx : x + n ≤ 4096) :
    Cleared sb dev i s i { s with fsbuf := g } (4096 * i + x) n := by
  have hread : ∀ y < 8 * 512, bit s.fsbuf y =
      bit (overBuf sb dev i s) (8 * (mapByte sb + 512 * i) + y) := by
    intro y hy
    rw [← bit_over sb dev i s hy, bit_mapOf]
    congr 1
    omega
  have hblock := clears_block hread h (by omega)
  rw [overBuf, put_put_cover (Nat.le_refl _) (Nat.le_refl _)] at hblock
  refine ⟨?_, fun _ _ => rfl⟩
  rwa [show 8 * mapByte sb + (4096 * i + x) =
    8 * (mapByte sb + 512 * i) + x by omega]

variable (sb dev i) in
theorem clearBit_run (hj : j < 512) (hk : k < 8)
    (hs : bit (mapBits sb dev i s) (4096 * i + (8 * j + k)) = true) :
    ∃ s', clearBit j k s = .ok () s' ∧
      Cleared sb dev i s i s' (4096 * i + (8 * j + k)) 1 := by
  rw [bit_over _ _ _ _ (by omega), bit_byte hk] at hs
  have hv : ∀ l < 8, (s.fsbuf j &&& ~~~((1 : Byte) <<< k)).getLsbD l =
      ((s.fsbuf j).getLsbD l && !decide (k ≤ l ∧ l < k + 1)) := by
    intro l hl
    rw [BitVec.getLsbD_and, BitVec.getLsbD_not, decide_eq_true hl,
      Bool.true_and, show (1 : Byte) <<< k = BitVec.twoPow 8 k from rfl,
      BitVec.getLsbD_twoPow, decide_eq_true hk, Bool.true_and]
    congr 2
    exact decide_eq_decide.mpr (by omega)
  refine ⟨_, ?_,
    buf_cleared sb dev i s (clears_update (by omega) hv) (by omega)⟩
  rw [clearBit, run_get_bind, run_bind_of (run_check_of hs)]
  rfl

/-- **THE FIRST BYTE** loses the bits from `k` on, as many as there are. -/
theorem clearBits_run (hj : j < 512) :
    ∀ {left k bits m : Nat} {s : Fs}, k + left = 8 → m = min bits left →
      AllSet (mapBits sb dev i s) (4096 * i + (8 * j + k))
        (4096 * i + (8 * j + k) + m) →
      ∃ s', clearBits j left k bits s = .ok ((bits - m : Nat) : Int) s' ∧
        Cleared sb dev i s i s' (4096 * i + (8 * j + k)) m := by
  intro left
  induction left with
  | zero =>
      intro k bits m s hk hm _
      obtain rfl : m = 0 := by omega
      exact ⟨s, rfl, cleared_zero s _⟩
  | succ left ih =>
      intro k bits m s hk hm hs
      rw [clearBits]
      by_cases hz : bits = 0
      · obtain rfl : m = 0 := by omega
        rw [if_pos (by omega), hz]
        exact ⟨s, rfl, cleared_zero s _⟩
      · obtain ⟨s₁, hrun, h₁⟩ := clearBit_run sb dev i hj
          (show k < 8 by omega) (hs _ (Nat.le_refl _) (by omega))
        have hs₁ := allSet_cleared h₁ hs
        have hrest : AllSet (mapBits sb dev i s₁) (4096 * i + (8 * j + (k + 1)))
            (4096 * i + (8 * j + (k + 1)) + (m - 1)) :=
          fun y h₃ h₄ => hs₁ y (by omega) (by omega)
        obtain ⟨s₂, hloop, h₂⟩ := ih (show k + 1 + left = 8 by omega)
          (show m - 1 = min (bits - 1) left by omega) hrest
        refine ⟨s₂, ?_, ?_⟩
        · rw [if_neg (by omega), run_bind_of hrun,
            show (bits : Int) - 1 = (bits - 1 : Nat) by omega, hloop]
          congr 2
          omega
        · have h := cleared_trans h₁ h₂
          rwa [show 1 + (m - 1) = m by omega] at h

/-- The end of a sector is the start of the next. -/
theorem nextSect_run (h0 : 0 ≤ mapStart sb)
    (haddr : ∀ l ≤ N, Addressed (mapStart sb + l)) (hidx : idx ≤ 512)
    (hN : 512 * i + idx ≤ 512 * N) (hi : i ≤ N) (s : Fs) (x : Nat) :
    ∃ (s' : Fs) (i' idx' : Nat), nextSect dev (mapStart sb + i) idx s =
        .ok (mapStart sb + i', idx') s' ∧
      idx' < 512 ∧ i' ≤ N ∧ 512 * i' + idx' = 512 * i + idx ∧
      Cleared sb dev i s i' s' x 0 := by
  rw [nextSect]
  by_cases hend : idx = 512
  · have hwr : wrSects dev (mapStart sb + i) 1 s =
        .ok () (wrote sb dev i s) := by
      refine run_wrSects.mpr ⟨haddr i hi, ?_⟩
      rw [mapStart_toNat h0, show (mapStart sb + (i : Int)).toNat =
        (mapStart sb).toNat + i by omega]
      rfl
    obtain ⟨t, ht⟩ : ∃ t, t = { wrote sb dev i s with
      fsbuf := put s.fsbuf 0 512 (drop ((wrote sb dev i s).disk dev)
        (mapByte sb + 512 * (i + 1))) } := ⟨_, rfl⟩
    have hnext : mapStart sb + (i : Int) + 1 = mapStart sb + (i + 1 : Nat) := by
      omega
    have hrd : rdSects dev (mapStart sb + (i + 1 : Nat)) 1 (wrote sb dev i s) =
        .ok () t := by
      refine run_rdSects.mpr ⟨haddr (i + 1) (by omega), ?_⟩
      rw [mapStart_toNat h0]
      exact ht
    rw [if_pos hend, run_bind_of hwr, hnext, run_bind_of hrd]
    refine ⟨t, i + 1, 0, rfl, by omega, by omega, by omega, ?_, fun d hd => ?_⟩
    · have hover := over_read sb dev (i + 1) (wrote sb dev i s) s.fsbuf
      rw [← ht, wrote_disk] at hover
      rw [hover]
      exact clears_zero _ _
    · rw [ht]
      exact Function.update_of_ne hd ..
  · rw [if_neg hend]
    exact ⟨s, i, idx, rfl, by omega, hi, rfl, cleared_zero s x⟩

variable (sb dev i s) in
/-- A whole byte is cleared. -/
theorem byte_cleared (hidx : idx < 512)
    (hs : AllSet (mapBits sb dev i s) (8 * (512 * i + idx))
      (8 * (512 * i + idx) + 8)) :
    s.fsbuf idx = 0xFF ∧
      Cleared sb dev i s i
        { s with fsbuf := Function.update s.fsbuf idx 0 }
        (8 * (512 * i + idx)) 8 := by
  have hbit : ∀ l < 8, (s.fsbuf idx).getLsbD l = true := by
    intro l hl
    rw [← bit_byte hl, ← bit_over sb dev i s (by omega)]
    exact hs _ (by omega) (by omega)
  have hones : ∀ l < 8, (0xFF : Byte).getLsbD l = true := by decide
  refine ⟨BitVec.eq_of_getLsbD_eq fun l hl => ?_, ?_⟩
  · rw [hbit l hl, hones l hl]
  · have hv : ∀ l < 8, (0 : Byte).getLsbD l =
        ((s.fsbuf idx).getLsbD l && !decide (0 ≤ l ∧ l < 0 + 8)) := by
      intro l hl
      rw [decide_eq_true (by omega), Bool.not_true, Bool.and_false]
      exact BitVec.getLsbD_zero
    have h := buf_cleared sb dev i s (clears_update (by omega) hv) (by omega)
    rwa [show 4096 * i + (8 * idx + 0) = 8 * (512 * i + idx) by omega] at h

/-- **WHOLE BYTES** are cleared, sector after sector. -/
theorem clearBytes_run (h0 : 0 ≤ mapStart sb)
    (haddr : ∀ l ≤ N, Addressed (mapStart sb + l)) :
    ∀ (left i idx rest : Nat) (s : Fs), idx ≤ 512 → i ≤ N →
      512 * i + idx + left ≤ 512 * N →
      AllSet (mapBits sb dev i s) (8 * (512 * i + idx))
        (8 * (512 * i + idx) + 8 * left) →
      ∃ (s' : Fs) (i' idx' : Nat),
        clearBytes dev left (mapStart sb + i) idx (rest + 8 * left : Nat) s =
          .ok (mapStart sb + i', idx', (rest : Int)) s' ∧
        idx' ≤ 512 ∧ i' ≤ N ∧ 512 * i' + idx' = 512 * i + idx + left ∧
        Cleared sb dev i s i' s' (8 * (512 * i + idx)) (8 * left) := by
  intro left
  induction left with
  | zero =>
      intro i idx rest s hidx hi _ _
      exact ⟨s, i, idx, rfl, hidx, hi, rfl, cleared_zero s _⟩
  | succ left ih =>
      intro i idx rest s hidx hi hN hs
      obtain ⟨s₁, i₁, idx₁, hnext, hidx₁, hi₁, hat, h₁⟩ := nextSect_run h0 haddr
        hidx (by omega) hi s (8 * (512 * i + idx))
      have hs₁ := allSet_cleared h₁ hs
      obtain ⟨hfull, h₂⟩ := byte_cleared sb dev i₁ s₁ hidx₁
        fun y h₃ h₄ => hs₁ y (by omega) (by omega)
      have h₁₂ := cleared_trans h₁ (n := 0) (m := 8) (by
        rwa [hat] at h₂)
      have hs₂ := allSet_cleared h₁₂ hs
      obtain ⟨s₃, i₃, idx₃, hloop, hidx₃, hi₃, hat₃, h₃⟩ := ih i₁ (idx₁ + 1)
        rest { s₁ with fsbuf := Function.update s₁.fsbuf idx₁ 0 } (by omega)
        hi₁ (by omega) fun y h₃ h₄ => hs₂ y (by omega) (by omega)
      refine ⟨s₃, i₃, idx₃, ?_, hidx₃, hi₃, by omega, ?_⟩
      · rw [clearBytes, run_bind_of hnext, run_get_bind]
        dsimp only
        have hset : setBuf (fun b => Function.update b idx₁ 0) s₁ =
            .ok () { s₁ with fsbuf := Function.update s₁.fsbuf idx₁ 0 } := rfl
        rw [run_bind_of (run_check_of hfull), run_bind_of hset,
          show ((rest + 8 * (left + 1) : Nat) : Int) - 8 =
            (rest + 8 * left : Nat) by omega]
        exact hloop
      · have h := cleared_trans h₁₂ (m := 8 * left) (by
          rwa [show 8 * (512 * i₁ + (idx₁ + 1)) = 8 * (512 * i + idx) + (0 + 8)
            by omega] at h₃)
        rwa [show 0 + 8 + 8 * left = 8 * (left + 1) by omega] at h

theorem lowBits_bit {l : Nat} (hl : l < 8) :
    (lowBits n).getLsbD l = decide (l < n) ∧
      ((0xFF : Byte) <<< n).getLsbD l = !decide (l < n) := by
  have hones : ∀ l < 8, (0xFF : Byte).getLsbD l = true := by decide
  have hshift : ((0xFF : Byte) <<< n).getLsbD l = !decide (l < n) := by
    rw [BitVec.getLsbD_shiftLeft, decide_eq_true hl, Bool.true_and]
    by_cases h : l < n
    · rw [decide_eq_true h, Bool.not_true, Bool.false_and]
    · rw [decide_eq_false h, Bool.not_false, Bool.true_and]
      exact hones _ (by omega)
  refine ⟨?_, hshift⟩
  rw [lowBits, BitVec.getLsbD_not, decide_eq_true hl, Bool.true_and, hshift,
    Bool.not_not]

/-- **THE LAST BYTE** loses the bits that are left, and the sector is
    written. -/
theorem clearLast_run (h0 : 0 ≤ mapStart sb)
    (haddr : ∀ l ≤ N, Addressed (mapStart sb + l)) (hidx : idx ≤ 512)
    (hi : i ≤ N) (hN : 512 * i + idx ≤ 512 * N) (hn : n < 8)
    (hs : AllSet (mapBits sb dev i s) (8 * (512 * i + idx))
      (8 * (512 * i + idx) + n)) :
    ∃ s', clearLast dev (mapStart sb + i) idx n s = .ok () s' ∧
      Clears (overBuf sb dev i s) (s'.disk dev)
        (8 * mapByte sb + 8 * (512 * i + idx)) n ∧
      ∀ d, d ≠ dev → s'.disk d = s.disk d := by
  obtain ⟨s₁, i₁, idx₁, hnext, hidx₁, hi₁, hat, h₁⟩ := nextSect_run h0 haddr
    hidx hN hi s (8 * (512 * i + idx))
  have hs₁ := allSet_cleared h₁ hs
  have hbit : ∀ l < n, (s₁.fsbuf idx₁).getLsbD l = true := by
    intro l hl
    rw [← bit_byte (by omega), ← bit_over sb dev i₁ s₁ (by omega)]
    exact hs₁ _ (by omega) (by omega)
  have hset : s₁.fsbuf idx₁ &&& lowBits n = lowBits n := by
    refine BitVec.eq_of_getLsbD_eq fun l hl => ?_
    rw [BitVec.getLsbD_and, (lowBits_bit hl).1]
    by_cases h : l < n
    · rw [hbit l h, Bool.true_and]
    · rw [decide_eq_false h, Bool.and_false]
  have hv : ∀ l < 8, (s₁.fsbuf idx₁ &&& (0xFF : Byte) <<< n).getLsbD l =
      ((s₁.fsbuf idx₁).getLsbD l && !decide (0 ≤ l ∧ l < 0 + n)) := by
    intro l hl
    rw [BitVec.getLsbD_and, (lowBits_bit hl).2]
    congr 2
    exact decide_eq_decide.mpr (by omega)
  have h₂ := buf_cleared sb dev i₁ s₁ (clears_update (by omega) hv) (by omega)
  have h₁₂ := cleared_trans h₁ (n := 0) (m := n) (by
    rwa [show 4096 * i₁ + (8 * idx₁ + 0) = 8 * (512 * i + idx) + 0 by omega]
      at h₂)
  obtain ⟨s₂, hs₂⟩ : ∃ s₂, s₂ = { s₁ with
    fsbuf := Function.update s₁.fsbuf idx₁
      (s₁.fsbuf idx₁ &&& (0xFF : Byte) <<< n) } := ⟨_, rfl⟩
  rw [← hs₂, Nat.zero_add] at h₁₂
  have hwr : wrSects dev (mapStart sb + i₁) 1 s₂ =
      .ok () (wrote sb dev i₁ s₂) := by
    refine run_wrSects.mpr ⟨haddr i₁ hi₁, ?_⟩
    rw [mapStart_toNat h0, show (mapStart sb + (i₁ : Int)).toNat =
      (mapStart sb).toNat + i₁ by omega]
    rfl
  refine ⟨wrote sb dev i₁ s₂, ?_, ?_, fun d hd => ?_⟩
  · have hbuf : setBuf (fun b => Function.update b idx₁
        (b idx₁ &&& (0xFF : Byte) <<< n)) s₁ = .ok () s₂ :=
      run_setBuf.mpr hs₂
    rw [clearLast, run_bind_of hnext, if_neg (by omega), run_get_bind,
      Int.toNat_natCast]
    dsimp only
    rw [run_bind_of (run_check_of hset), run_bind_of hbuf, hwr]
  · rw [wrote_disk]
    exact h₁₂.bits
  · rw [← h₁₂.devices d hd]
    exact Function.update_of_ne hd ..

/-- **A RUN OF BITS** from `b` on is cleared, with its first sector in the
    buffer. -/
theorem clearRun (h0 : 0 ≤ mapStart sb)
    (haddr : ∀ l ≤ N, Addressed (mapStart sb + l)) (hb : b < 4096 * N)
    (hend : b + n ≤ 4096 * N)
    (hs : AllSet (mapBits sb dev (b / 4096) s) b (b + n)) :
    ∃ s', (clearBits (b / 8 % 512) (8 - b % 8) (b % 8) n >>= fun bits =>
        clearBytes dev ((n - (8 - b % 8)) / 8)
          (mapStart sb + (b / 4096 : Nat)) (b / 8 % 512 + 1) bits >>= fun r =>
        clearLast dev r.1 r.2.1 r.2.2) s = .ok () s' ∧
      Clears (overBuf sb dev (b / 4096) s) (s'.disk dev)
        (8 * mapByte sb + b) n ∧
      ∀ d, d ≠ dev → s'.disk d = s.disk d := by
  obtain ⟨j, hj⟩ : ∃ j, j = b / 8 % 512 := ⟨_, rfl⟩
  obtain ⟨i, hi⟩ : ∃ i, i = b / 4096 := ⟨_, rfl⟩
  obtain ⟨m, hm⟩ : ∃ m, m = min n (8 - b % 8) := ⟨_, rfl⟩
  obtain ⟨c, hc⟩ : ∃ c, c = (n - (8 - b % 8)) / 8 := ⟨_, rfl⟩
  obtain ⟨e, he⟩ : ∃ e, e = n - m - 8 * c := ⟨_, rfl⟩
  rw [← hi] at hs
  rw [← hj, ← hi, ← hc]
  have hat : 4096 * i + (8 * j + b % 8) = b := by omega
  have hfirst : AllSet (mapBits sb dev i s) (4096 * i + (8 * j + b % 8))
      (4096 * i + (8 * j + b % 8) + m) := by
    rw [hat]
    exact fun y h₁ h₂ => hs y h₁ (by omega)
  obtain ⟨s₁, hrun₁, h₁⟩ := clearBits_run (show j < 512 by omega)
    (show b % 8 + (8 - b % 8) = 8 by omega) hm hfirst
  rw [hat] at h₁
  have hs₁ := allSet_cleared h₁ hs
  have hbytes : b + m = 8 * (512 * i + (j + 1)) ∨ c = 0 ∧ e = 0 := by omega
  obtain ⟨s₂, i₂, idx₂, hrun₂, hidx₂, hi₂, hat₂, h₂⟩ := clearBytes_run h0 haddr
    c i (j + 1) e s₁ (by omega) (by omega) (by omega)
    fun y h₁ h₂ => hs₁ y (by omega) (by omega)
  have h₁₂ : Cleared sb dev i s i₂ s₂ b (m + 8 * c) :=
    cleared_trans h₁ ⟨clears_at h₂.bits (by omega), h₂.devices⟩
  have hs₂ := allSet_cleared h₁₂ hs
  have hlast : AllSet (mapBits sb dev i₂ s₂) (8 * (512 * i₂ + idx₂))
      (8 * (512 * i₂ + idx₂) + e) :=
    fun y h₁ h₂ => hs₂ y (by omega) (by omega)
  obtain ⟨s₃, hrun₃, h₃, hdev⟩ := clearLast_run h0 haddr hidx₂ hi₂ (by omega)
    (by omega) hlast
  refine ⟨s₃, ?_, ?_, fun d hd => ?_⟩
  · rw [run_bind_of hrun₁, show n - m = e + 8 * c by omega,
      run_bind_of hrun₂, hrun₃]
  · have h := clears_trans h₁₂.bits (clears_at h₃ (by omega))
    rwa [show m + 8 * c + e = n by omega] at h
  · rw [hdev d hd, h₁₂.devices d hd]

end Clear

/-! ## Freeing undoes allocation -/

section Free

variable {sb : SuperBlock} {dev a : Int} {b n l : Nat}
  {s s' t : Fs} {i : Fin NR_INODE}

theorem toInt_ofInt {z : Int} (h : -2147483648 ≤ z ∧ z < 2147483648) :
    (BitVec.ofInt 32 z).toInt = z := by
  rw [BitVec.toInt_ofInt, Int.bmod_def]
  omega

/-- C division rounds a negative number up, to no bytes here. -/
theorem toNat_tdiv (z : Int) : (z.tdiv 8).toNat = z.toNat / 8 := by
  cases z with
  | ofNat m => rfl
  | negSucc m =>
      have h : (Int.negSucc m).tdiv 8 ≤ 0 := by
        rw [Int.negSucc_eq, Int.neg_tdiv]
        exact Int.neg_nonpos_of_nonneg (Int.tdiv_nonneg (by omega) (by omega))
      rw [Int.toNat_of_nonpos h, Int.toNat_negSucc]

/-- The bit is found again from the number of its sector. -/
theorem start_bit (hb : b < 2147483648) :
    (BitVec.ofInt 32 (sectorNr sb b) - sb.nr1stDataSect + 1).toInt = b := by
  have hone : (1 : BitVec 32) = BitVec.ofInt 32 1 := rfl
  rw [sectorNr, BitVec.ofInt_toInt, BitVec.add_sub_cancel, hone,
    ← BitVec.ofInt_add, Int.sub_add_cancel]
  exact toInt_ofInt (by omega)

theorem mapStart_of_made (h : Made sb) : mapStart sb = 3 := by
  rw [mapStart, h.imap]
  rfl

/-- No sector has number 0: the data begins behind the maps. -/
theorem sectorNr_ne (h : Made sb) (hb : b < 2147483648) :
    sectorNr sb b ≠ 0 := by
  have hfirst := h.first
  have hsmap := h.smap
  rw [sectorNr_bmod, Int.bmod_def]
  omega

theorem addressed_map (h : Made sb) (hl : l ≤ sb.nrSectMapSects.toNat) :
    Addressed (mapStart sb + l) := by
  have hsmap := h.smap
  rw [mapStart_of_made h]
  exact ⟨by omega, by omega⟩

/-- The inode is one for the run of `n` sectors from the bit `b` on. -/
theorem clearSectorMapBits_run (h : Made sb)
    (hsb : s.superOf (s.inodeTable i).dev = some sb) (hb : b < 2147483648)
    (hn : n < 2147483648) (hend : b + n ≤ mapSize sb) (h0 : 0 < n)
    (hstart : (s.inodeTable i).sectStart = BitVec.ofInt 32 (sectorNr sb b))
    (hnr : (s.inodeTable i).nrSects = BitVec.ofNat 32 n)
    (hset : AllSet (mapOf sb (s.disk (s.inodeTable i).dev)) b (b + n)) :
    ∃ s', clearSectorMapBits i s = .ok () s' ∧
      Clears (s.disk (s.inodeTable i).dev) (s'.disk (s.inodeTable i).dev)
        (8 * mapByte sb + b) n ∧
      ∀ d, d ≠ (s.inodeTable i).dev → s'.disk d = s.disk d := by
  obtain ⟨dev, hdev⟩ : ∃ dev, dev = (s.inodeTable i).dev := ⟨_, rfl⟩
  rw [← hdev] at hsb hset ⊢
  have hsmap := h.smap
  have hm := mapStart_of_made h
  -- the C code computes the byte and the sector of the first bit in ints
  have hbits : (s.inodeTable i).nrSects.toInt = n := by
    rw [hnr, BitVec.toInt_eq_toNat_of_lt (by
      rw [BitVec.toNat_ofNat]
      omega), BitVec.toNat_ofNat]
    omega
  have hbyte : (b : Int).tdiv 8 = (b / 8 : Nat) := rfl
  have hsect : (2 + sb.nrInodeMapSects +
      BitVec.ofInt 32 (((b / 8 : Nat) : Int).tdiv 512)).toInt =
      mapStart sb + (b / 4096 : Nat) := by
    rw [h.imap, hm, show ((2 : BitVec 32) + 1) = BitVec.ofInt 32 3 from rfl,
      show ((b / 8 : Nat) : Int).tdiv 512 = (b / 8 / 512 : Nat) from rfl,
      ← BitVec.ofInt_add, toInt_ofInt] <;> omega
  have hcnt : (((n : Int) - (8 - (b : Int).tmod 8)).tdiv 8).toNat =
      (n - (8 - b % 8)) / 8 := by
    have hmod : (b : Int).tmod 8 = (b % 8 : Nat) := rfl
    rw [hmod, toNat_tdiv]
    omega
  obtain ⟨s₁, hs₁⟩ : ∃ s₁, s₁ = { s with
    fsbuf := put s.fsbuf 0 512
      (drop (s.disk dev) (mapByte sb + 512 * (b / 4096))) } := ⟨_, rfl⟩
  have hrd : rdSects dev (mapStart sb + (b / 4096 : Nat)) 1 s = .ok () s₁ := by
    rw [mapSize] at hend
    refine run_rdSects.mpr ⟨addressed_map h (by omega), ?_⟩
    rw [mapStart_toNat (by omega)]
    exact hs₁
  have hover : overBuf sb dev (b / 4096) s₁ = s.disk dev := by
    rw [hs₁]
    exact over_read sb dev (b / 4096) s s.fsbuf
  rw [mapSize] at hend
  have hbits₁ : AllSet (mapBits sb dev (b / 4096) s₁) b (b + n) := by
    rw [mapBits, hover]
    exact hset
  obtain ⟨s', hrun, hclears, hothers⟩ := clearRun (by omega)
    (fun l hl => addressed_map h hl) (by omega) hend hbits₁
  rw [hover] at hclears
  refine ⟨s', ?_, hclears, fun d hd => ?_⟩
  · rw [clearSectorMapBits, run_get_bind]
    dsimp only
    rw [← hdev, run_bind_of (run_getSuperBlock.mpr ⟨hsb, rfl⟩)]
    rw [hstart, start_bit hb, hbyte, hbits, hsect, run_bind_of hrd,
      if_neg (by omega), hcnt]
    exact hrun
  · rw [hothers d hd, hs₁]

/-- **FREEING UNDOES ALLOCATION**: for every sector map, and every later state
    in which the map is as the allocation has left it. -/
theorem free_undoes_alloc (h : Made sb)
    (hsb : s.superOf dev = some sb)
    (h0 : 0 < n) (hn : n < 2147483648)
    (halloc : allocSectMapBit dev n s = .ok a s')
    (hsbt : t.superOf dev = some sb)
    (hmap : ∀ y < mapSize sb, bit (mapOf sb (t.disk dev)) y =
      bit (mapOf sb (s'.disk dev)) y)
    (hdev : (t.inodeTable i).dev = dev)
    (hstart : (t.inodeTable i).sectStart = BitVec.ofInt 32 a)
    (hnr : (t.inodeTable i).nrSects = BitVec.ofNat 32 n) :
    ∃ t', clearSectorMapBits i t = .ok () t' ∧
      (∀ y < mapSize sb, bit (mapOf sb (t'.disk dev)) y =
        bit (mapOf sb (s.disk dev)) y) ∧
      (∀ x, x < mapByte sb ∨ mapByte sb + 512 * sb.nrSectMapSects.toNat ≤ x →
        t'.disk dev x = t.disk dev x) ∧
      ∀ d, d ≠ dev → t'.disk d = t.disk d := by
  obtain ⟨b, f', g, ⟨-, ⟨-, -, hb⟩, -, hclear, hend, -⟩, rfl, hmarks, rfl⟩ :=
    alloc_run hsb h0 (fun z hz => sectorNr_ne h hz) halloc
  have hmarks := marks_mapOf hmarks
  rw [show ({ s with
    disk := Function.update s.disk dev f'
    writes := s.writes ++ mapWrites sb dev (b / 4096)
      ((b % 4096 + n - 1) / 4096 + 1)
    fsbuf := g } : Fs).disk dev = f' from Function.update_self ..] at hmap
  have hset : AllSet (mapOf sb (t.disk dev)) b (b + n) := by
    intro y h₁ h₂
    rw [hmap y (by omega), hmarks, decide_eq_true ⟨h₁, h₂⟩, Bool.or_true]
  subst hdev
  obtain ⟨t', hrun, hclears, hothers⟩ := clearSectorMapBits_run h hsbt hb hn
    hend h0 hstart hnr hset
  refine ⟨t', hrun, fun y hy => ?_, fun x hx => ?_, hothers⟩
  · exact bit_of_marks_clears hmarks hclear (clears_mapOf hclears) (hmap y hy)
  · rw [mapSize] at hend
    exact byte_of_clears hclears (by omega)

end Free

/-- A file whose bits are in two sectors of the map. -/
theorem free_undoes_alloc_first_file :
    ∃ (a : Int) (s' t' : Fs),
      allocSectMapBit ROOT_DEV_NR 2048 (demoFs 0) = .ok a s' ∧
      clearSectorMapBits ⟨0, first_entry⟩ { s' with
        inodeTable := fun _ =>
          ⟨TYPE_REGULAR, 0, BitVec.ofInt 32 a, 2048, ROOT_DEV_NR, 1, 2⟩ } =
        .ok () t' ∧
      ∀ y < mapSize demoSuper, bit (mapOf demoSuper (t'.disk ROOT_DEV_NR)) y =
        bit (mapOf demoSuper ((demoFs 0).disk ROOT_DEV_NR)) y := by
  have hmade : Made demoSuper := superBlock_made 40960 ROOT_DEV_NR
  have hfirst :
      FirstRun demoSuper ((demoFs 0).disk ROOT_DEV_NR) 0 2048 2049 := by
    refine ⟨demo_first (Nat.zero_le _), ⟨by decide, by decide, by decide⟩,
      by decide, fun y h₁ h₂ => ?_, by decide, by decide⟩
    rw [demo_bit (Nat.zero_le _)]
    exact decide_eq_false (by omega)
  obtain ⟨s', halloc, hs'⟩ := alloc_of_firstRun (demoFs_super 0)
    (show 0 < 2048 by decide) hfirst
  obtain ⟨t, ht⟩ : ∃ t, t = { s' with
    inodeTable := fun _ => (⟨TYPE_REGULAR, 0,
      BitVec.ofInt 32 (sectorNr demoSuper (2049 : Nat)), 2048, ROOT_DEV_NR, 1,
      2⟩ : Inode) } := ⟨_, rfl⟩
  have hsuper : t.superOf ROOT_DEV_NR = some demoSuper := by
    rw [ht]
    exact (superOf_congr hs').trans (demoFs_super 0)
  have hinode : t.inodeTable ⟨0, first_entry⟩ = ⟨TYPE_REGULAR, 0,
      BitVec.ofInt 32 (sectorNr demoSuper (2049 : Nat)), 2048, ROOT_DEV_NR, 1,
      2⟩ := by rw [ht]
  obtain ⟨t', hrun, hmap, -⟩ := free_undoes_alloc hmade (demoFs_super 0)
    (by decide) (by decide) halloc hsuper (fun y _ => by rw [ht])
    (i := ⟨0, first_entry⟩) (by rw [hinode]) (by rw [hinode])
    (by rw [hinode]; rfl)
  refine ⟨_, s', t', halloc, ?_, hmap⟩
  rw [← ht]
  exact hrun

end KosUnlink
