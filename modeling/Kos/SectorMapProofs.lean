import Kos.BitMapProofs
import Kos.FileSystemProofs

/-! # Allocation of sectors

    `alloc_sect_map_bit` of `task/fs/open_close.c`: it commits to the first
    clear bit of the sector map and asserts that the bits behind it are clear
    too.

    * `Marked` is what marking `m` bits of `fsbuf` can come to; it composes
      over bits, bytes and sectors.
    * The result is right exactly when the first clear bit of the map starts a run
      that will do, or when the allocation stops before it has written a
      sector and no run will do (`alloc_iff`). -/

namespace KosSectorMap

open BitMap Overlay KosFs
open KosKernel (Halt)

/-! ## The function -/

/-- `for (; ((fsbuf[j] >> k) & 1) != 0; k++)`, in a byte that is not `0xFF`. -/
def lowestClear (b : Byte) : Nat → Nat → Nat
  | 0, k => k
  | fuel + 1, k => if b.getLsbD k then lowestClear b fuel (k + 1) else k

/-- The assertion in front of a bit that is set, and the bit. -/
def markBit (j k : Nat) : FsM Unit := do
  let s ← get
  check ((s.fsbuf j).getLsbD k = false)
  setBuf fun b => Function.update b j (b j ||| (1 : Byte) <<< k)

/-- `for (; k < 8; k++)`, with `8 - k` rounds left; the result is
    `nr_sects_to_alloc`. -/
def markBits (j : Nat) : Nat → Nat → Nat → FsM Nat
  | 0, _, n => pure n
  | left + 1, k, n => do
      markBit j k
      if n - 1 = 0 then pure 0 else markBits j left (k + 1) (n - 1)

/-- The sector of a bit: sect M <-> bit (M - nr_1st_data_sect + 1). -/
def sectorNr (sb : SuperBlock) (bit : Int) : Int :=
  (BitVec.ofInt 32 (bit - 1) + sb.nr1stDataSect).toInt

/-- One round of the loop on `j`, with `alloc_sect_nr` and
    `nr_sects_to_alloc`. -/
def allocByte (sb : SuperBlock) (i j : Nat) (alloc : Int) (n : Nat) :
    FsM (Int × Nat) :=
  if alloc ≠ 0 then do
    let n ← markBits j 8 0 n
    pure (alloc, n)
  else do
    let s ← get
    if s.fsbuf j = 0xFF then pure (alloc, n)
    else do
      let k := lowestClear (s.fsbuf j) 8 0
      let bit ← intAdd (((i * 512 + j) * 8 : Nat) : Int) k
      let n ← markBits j (8 - k) k n
      pure (sectorNr sb bit, n)

/-- The loop on `j`, with `left` bytes of the sector left. -/
def allocBytes (sb : SuperBlock) (i : Nat) :
    Nat → Nat → Int → Nat → FsM (Int × Nat)
  | 0, _, alloc, n => pure (alloc, n)
  | left + 1, j, alloc, n =>
      if 0 < n then do
        let r ← allocByte sb i j alloc n
        allocBytes sb i left (j + 1) r.1 r.2
      else pure (alloc, n)

/-- `sect_map_sec_nr`. -/
def mapStart (sb : SuperBlock) : Int := (2 + sb.nrInodeMapSects).toInt

/-- The sector that has been looked through, if something was allocated in it. -/
def writeBack (dev n alloc : Int) : FsM Unit :=
  if alloc ≠ 0 then wrSects dev n 1 else pure ()

/-- The loop on `i`, with `left` sectors of the map left. -/
def allocSects (sb : SuperBlock) (dev : Int) :
    Nat → Nat → Int → Nat → FsM (Int × Nat)
  | 0, _, alloc, n => pure (alloc, n)
  | left + 1, i, alloc, n => do
      rdSects dev (mapStart sb + i) 1
      let r ← allocBytes sb i 512 0 alloc n
      writeBack dev (mapStart sb + i) r.1
      if r.2 = 0 then pure r else allocSects sb dev left (i + 1) r.1 r.2

/-- `alloc_sect_map_bit`. -/
def allocSectMapBit (dev : Int) (n : Nat) : FsM Int := do
  let sb ← getSuperBlock dev
  let r ← allocSects sb dev sb.nrSectMapSects.toNat 0 0 n
  check (r.2 = 0)
  pure r.1

/-! ## Marking bits of the buffer -/

/-- What marking `m` bits of `fsbuf` from `x` on comes to: they are clear and
    become set, or the assertion on one of them fails. -/
def Marked {α : Type} (s : Fs) (x m : Nat) (r : α)
    (res : EStateM.Result Halt Fs α) : Prop :=
  (Clear s.fsbuf x m ∧
    ∃ g, Marks s.fsbuf g x m ∧ res = .ok r { s with fsbuf := g }) ∨
  (¬ Clear s.fsbuf x m ∧
    ∃ g, res = .error .assertionFailure { s with fsbuf := g })

section Mark

variable {α β : Type} {s : Fs} {x m m' i j k n left : Nat}

/-- Nothing is marked by a value. -/
theorem marked_pure (r : α) : Marked s x 0 r ((pure r : FsM α) s) :=
  Or.inl ⟨fun y h₁ h₂ => by omega, s.fsbuf, marks_zero _ _, rfl⟩

/-- What two programs mark one behind the other. -/
theorem marked_bind {p : FsM α} {q : α → FsM β} {a : α} {r : β}
    (hp : Marked s x m a (p s))
    (hq : ∀ g, Marked { s with fsbuf := g } (x + m) m' r
      (q a { s with fsbuf := g })) :
    Marked s x (m + m') r ((p >>= q) s) := by
  rcases hp with ⟨hclear, g, hg, hrun⟩ | ⟨hset, g, hrun⟩
  · rw [run_bind_of hrun]
    rcases hq g with ⟨hclear', g', hg', hrun'⟩ | ⟨hset', g', hrun'⟩
    · exact Or.inl ⟨clear_append.mpr
        ⟨hclear, (clear_of_marks hg (Nat.le_refl _)).mp hclear'⟩,
        g', marks_trans hg hg', hrun'⟩
    · refine Or.inr ⟨fun h => hset' ?_, g', hrun'⟩
      exact (clear_of_marks hg (Nat.le_refl _)).mpr (clear_append.mp h).2
  · rw [run_bind_error hrun]
    exact Or.inr ⟨fun h => hset (clear_append.mp h).1, g, rfl⟩

/-- One bit. -/
theorem markBit_marked (hk : k < 8) :
    Marked s (8 * j + k) 1 () (markBit j k s) := by
  have hrun : markBit j k s = (check ((s.fsbuf j).getLsbD k = false) >>=
      fun _ => setBuf fun b =>
        Function.update b j (b j ||| (1 : Byte) <<< k)) s := rfl
  have hone : Clear s.fsbuf (8 * j + k) 1 ↔ (s.fsbuf j).getLsbD k = false := by
    rw [← bit_byte hk]
    constructor
    · intro h
      exact h _ (Nat.le_refl _) (by omega)
    · intro h y h₁ h₂
      rwa [show y = 8 * j + k by omega]
  by_cases hbit : (s.fsbuf j).getLsbD k = false
  · refine Or.inl ⟨hone.mpr hbit, _, marks_one hk, ?_⟩
    rw [hrun, run_bind_of (run_check_of hbit)]
    rfl
  · refine Or.inr ⟨fun h => hbit (hone.mp h), s.fsbuf, ?_⟩
    rw [hrun, run_bind_error (run_check_error hbit)]

/-- The rest of a byte, or as many bits as are wanted. -/
theorem markBits_marked (hn : 0 < n) (hk : k + left = 8) :
    Marked s (8 * j + k) (min n left) (n - min n left)
      (markBits j left k n s) := by
  induction left generalizing s k n with
  | zero =>
      rw [Nat.min_zero]
      exact marked_pure n
  | succ left ih =>
      have hbit : Marked s (8 * j + k) 1 () (markBit j k s) :=
        markBit_marked (by omega)
      rw [markBits, show min n (left + 1) = 1 + min (n - 1) left by omega,
        show n - (1 + min (n - 1) left) = n - 1 - min (n - 1) left by omega]
      refine marked_bind hbit fun g => ?_
      by_cases hlast : n - 1 = 0
      · rw [if_pos hlast, hlast, Nat.zero_min]
        exact marked_pure 0
      · rw [if_neg hlast, Nat.add_assoc]
        exact ih (by omega) (by omega)

/-- Nothing is left to be done. -/
theorem allocBytes_zero {sb : SuperBlock} {alloc : Int} :
    allocBytes sb i left j alloc 0 = pure (alloc, 0) := by
  cases left with
  | zero => rfl
  | succ left => rw [allocBytes, if_neg (Nat.lt_irrefl 0)]

/-- Once a sector is chosen every byte is marked. -/
theorem allocBytes_marked {sb : SuperBlock} {alloc : Int} (ha : alloc ≠ 0) :
    Marked s (8 * j) (min n (8 * left)) (alloc, n - min n (8 * left))
      (allocBytes sb i left j alloc n s) := by
  induction left generalizing s j n with
  | zero =>
      rw [Nat.mul_zero, Nat.min_zero]
      exact marked_pure (alloc, n)
  | succ left ih =>
      rw [allocBytes]
      by_cases hn : 0 < n
      · have hbyte : Marked s (8 * j) (min n 8) (alloc, n - min n 8)
            (allocByte sb i j alloc n s) := by
          have hbits : Marked s (8 * j + 0) (min n 8) (n - min n 8)
              (markBits j 8 0 n s) := markBits_marked hn rfl
          have h := marked_bind (q := fun n => (pure (alloc, n) : FsM _)) hbits
            fun g => marked_pure (alloc, n - min n 8)
          rw [allocByte, if_pos ha]
          rwa [Nat.add_zero, Nat.add_zero] at h
        rw [if_pos hn, show min n (8 * (left + 1)) =
          min n 8 + min (n - min n 8) (8 * left) by omega,
          show n - (min n 8 + min (n - min n 8) (8 * left)) =
            n - min n 8 - min (n - min n 8) (8 * left) by omega]
        refine marked_bind hbyte fun g => ?_
        rcases Nat.lt_or_ge n 8 with hlt | hge
        · rw [show n - min n 8 = 0 by omega, Nat.zero_min, allocBytes_zero]
          exact marked_pure _
        · rw [show 8 * j + min n 8 = 8 * (j + 1) by omega]
          exact ih
      · rw [if_neg hn, show n = 0 by omega, Nat.zero_min]
        exact marked_pure _

end Mark

/-! ## The map -/

/-- The bits of the map. -/
def mapSize (sb : SuperBlock) : Nat := 4096 * sb.nrSectMapSects.toNat

/-- The first byte of the map on the device. -/
def mapByte (sb : SuperBlock) : Nat := 512 * (mapStart sb).toNat

/-- The sector map on a device. -/
def mapOf (sb : SuperBlock) (f : Nat → Byte) : Nat → Byte := drop f (mapByte sb)

/-- The run of `n` bits from `x` on is clear, in the map, and its last sector
    can be written. -/
def Fits (sb : SuperBlock) (f : Nat → Byte) (x n : Nat) : Prop :=
  Clear (mapOf sb f) x n ∧ x + n ≤ mapSize sb ∧
    Addressed (mapStart sb + ((x + n - 1) / 4096 : Nat))

/-- The write requests for `k` sectors of the map from `i` on. -/
def mapWrites (sb : SuperBlock) (dev : Int) (i k : Nat) :
    List (Int × Nat × Nat) :=
  (List.range' ((mapStart sb).toNat + i) k).map fun p => (dev, p, 1)

/-- What is left to do from sector `i` on. -/
def rest (sb : SuperBlock) (dev : Int) (left i : Nat) (alloc : Int) (n : Nat) :
    FsM Int := do
  let r ← allocSects sb dev left i alloc n
  check (r.2 = 0)
  pure r.1

/-- What is left to do once the bytes of sector `i` are. -/
def finish (sb : SuperBlock) (dev : Int) (left i : Nat) (r : Int × Nat) :
    FsM Int := do
  writeBack dev (mapStart sb + i) r.1
  if r.2 = 0 then pure r.1 else rest sb dev left (i + 1) r.1 r.2

section Steps

variable {sb : SuperBlock} {dev alloc : Int} {left i n : Nat} {s : Fs}

/-- The map is at its end and sectors are still wanted. -/
theorem rest_zero (hn : 0 < n) :
    rest sb dev 0 i alloc n s = .error .assertionFailure s := by
  have h : rest sb dev 0 i alloc n s =
      (check (n = 0) >>= fun _ => pure alloc) s := rfl
  rw [h, run_bind_error (run_check_error (by omega))]

/-- A sector of the map that is not on the device. -/
theorem rest_fault (h : ¬ Addressed (mapStart sb + i)) :
    rest sb dev (left + 1) i alloc n s = .error .fault s := by
  rw [rest, allocSects, bind_assoc, run_bind_error (rdSects_fault h)]

/-- The next sector of the map. -/
theorem rest_succ (h : Addressed (mapStart sb + i)) :
    rest sb dev (left + 1) i alloc n s =
      (allocBytes sb i 512 0 alloc n >>= finish sb dev left i)
        { s with
          fsbuf := put s.fsbuf 0 512
            (drop (s.disk dev) (512 * (mapStart sb + i).toNat)) } := by
  have hrd : rdSects dev (mapStart sb + i) 1 s = .ok () _ :=
    run_rdSects.mpr ⟨h, rfl⟩
  rw [rest, allocSects]
  simp only [bind_assoc]
  rw [run_bind_of hrd]
  refine congrArg (fun q => (allocBytes sb i 512 0 alloc n >>= q) _) ?_
  funext r
  rw [finish]
  refine congrArg (fun q => writeBack dev (mapStart sb + i) r.1 >>= q) ?_
  funext _
  by_cases hr : r.2 = 0
  · simp only [if_pos hr, pure_bind]
    rw [check, if_pos hr, pure_bind]
  · simp only [if_neg hr]
    rfl

end Steps

/-- The device with the buffer in the place of sector `i` of the map. -/
def overBuf (sb : SuperBlock) (dev : Int) (i : Nat) (s : Fs) : Nat → Byte :=
  put (s.disk dev) (mapByte sb + 512 * i) 512 s.fsbuf

section Over

variable {sb : SuperBlock} {dev : Int} {i x y m n : Nat} {s : Fs}
  {f f' g : Nat → Byte}

/-- The byte at which sector `i` of the map starts. -/
theorem mapStart_toNat (h0 : 0 ≤ mapStart sb) :
    512 * (mapStart sb + (i : Int)).toNat = mapByte sb + 512 * i := by
  rw [mapByte]
  omega

/-- A bit of the map is one of the device. -/
theorem bit_mapOf : bit (mapOf sb f) y = bit f (8 * mapByte sb + y) :=
  bit_drop f _ y

variable (sb dev i s) in
/-- In the sector that is read the bits are those of the buffer. -/
theorem bit_over (hy : y < 4096) :
    bit (mapOf sb (overBuf sb dev i s)) (4096 * i + y) = bit s.fsbuf y := by
  rw [bit_mapOf, overBuf, bit_put_of_in (by omega)]
  congr 1
  omega

/-- The others are those of the device. -/
theorem bit_over_of_ne (hy : y < 4096 * i ∨ 4096 * (i + 1) ≤ y) :
    bit (mapOf sb (overBuf sb dev i s)) y = bit (mapOf sb (s.disk dev)) y := by
  rw [bit_mapOf, overBuf, bit_put_of_out (by omega), bit_mapOf]

/-- The writes of two runs of sectors. -/
theorem mapWrites_append {k k' : Nat} :
    mapWrites sb dev i (k + k') =
      mapWrites sb dev i k ++ mapWrites sb dev (i + k) k' := by
  rw [mapWrites, mapWrites, mapWrites, ← List.map_append, ← Nat.add_assoc,
    List.range'_append_1]

variable (sb dev i s) in
/-- A run in that sector is one of the buffer. -/
theorem clear_over (hx : x + m ≤ 4096) :
    Clear (mapOf sb (overBuf sb dev i s)) (4096 * i + x) m ↔
      Clear s.fsbuf x m := by
  constructor
  · intro h y h₁ h₂
    rw [← bit_over sb dev i s (by omega)]
    exact h _ (by omega) (by omega)
  · intro h y h₁ h₂
    rw [show y = 4096 * i + (y - 4096 * i) by omega,
      bit_over _ _ _ _ (by omega)]
    exact h _ (by omega) (by omega)

variable (sb dev i) in
/-- What is marked in the buffer is marked in the map. -/
theorem over_marks (h : Marks s.fsbuf g x m) (hx : x + m ≤ 4096) :
    Marks (overBuf sb dev i s) (overBuf sb dev i { s with fsbuf := g })
      (8 * mapByte sb + (4096 * i + x)) m := by
  have hread : ∀ y < 8 * 512, bit s.fsbuf y =
      bit (overBuf sb dev i s) (8 * (mapByte sb + 512 * i) + y) := by
    intro y hy
    rw [← bit_over sb dev i s hy, bit_mapOf]
    congr 1
    omega
  have hblock := marks_block hread h (by omega)
  rw [overBuf, put_put_cover (Nat.le_refl _) (Nat.le_refl _)] at hblock
  rwa [show 8 * mapByte sb + (4096 * i + x) =
    8 * (mapByte sb + 512 * i) + x by omega]

variable (sb dev i s) in
/-- A sector that was read is in its place. -/
theorem over_read (b : Nat → Byte) :
    overBuf sb dev i { s with
      fsbuf := put b 0 512 (drop (s.disk dev) (mapByte sb + 512 * i)) } =
      s.disk dev := put_block_same

/-- What is marked on the device is marked in the map. -/
theorem marks_mapOf (h : Marks f f' (8 * mapByte sb + x) n) :
    Marks (mapOf sb f) (mapOf sb f') x n := by
  intro y
  rw [bit_mapOf, bit_mapOf, h]
  congr 1
  exact decide_eq_decide.mpr (by omega)

theorem addressed_of_le {a b : Int} (h : Addressed b) (h0 : 0 ≤ a)
    (hle : a ≤ b) : Addressed a := ⟨h0, by have := h.2; omega⟩

/-- When the first `m` bits of a run are marked the others have to fit. -/
theorem fits_after (h : Marks f f' (8 * mapByte sb + x) m)
    (hc : Clear (mapOf sb f) x m) (hn : m < n) :
    Fits sb f x n ↔ Fits sb f' (x + m) (n - m) := by
  have hsplit : Clear (mapOf sb f) x n ↔
      Clear (mapOf sb f') (x + m) (n - m) := by
    rw [clear_of_marks (marks_mapOf h) (Nat.le_refl _)]
    constructor
    · intro h
      exact clear_mono h (by omega) (by omega)
    · intro h
      have := clear_append.mpr ⟨hc, h⟩
      rwa [show m + (n - m) = n by omega] at this
  rw [Fits, Fits, hsplit, show x + m + (n - m) = x + n by omega]

end Over

/-! ## A run is taken -/

section Taken

variable {sb : SuperBlock} {dev alloc : Int} {left i x n : Nat} {s : Fs}
  {p : FsM (Int × Nat)}

/-- The sector is written back. -/
theorem writeBack_run (ha : alloc ≠ 0) (h0 : 0 ≤ mapStart sb)
    (hi : Addressed (mapStart sb + i)) :
    writeBack dev (mapStart sb + i) alloc s = .ok () { s with
      disk := Function.update s.disk dev (overBuf sb dev i s)
      writes := s.writes ++ mapWrites sb dev i 1 } := by
  rw [writeBack, if_pos ha]
  refine run_wrSects.mpr ⟨hi, ?_⟩
  rw [mapStart_toNat h0]
  have hnat : (mapStart sb + (i : Int)).toNat = (mapStart sb).toNat + i := by
    omega
  rw [hnat]
  rfl

/-- What becomes of a run of `n` bits from bit `x` of sector `i` on when it is
    the one that was chosen: it is marked and written, or nothing is written,
    or the run is given up with a part of it on the device. -/
inductive Taken (sb : SuperBlock) (dev alloc : Int) (s : Fs) (i x n : Nat) :
    EStateM.Result Halt Fs Int → Prop
  | done (f' g : Nat → Byte)
      (fits : Fits sb (overBuf sb dev i s) (4096 * i + x) n)
      (marks : Marks (overBuf sb dev i s) f'
        (8 * mapByte sb + (4096 * i + x)) n) :
      Taken sb dev alloc s i x n (.ok alloc { s with
        disk := Function.update s.disk dev f'
        writes := s.writes ++ mapWrites sb dev i ((x + n - 1) / 4096 + 1)
        fsbuf := g })
  | clean (g : Nat → Byte) (hole : ¬ Clear s.fsbuf x (min n (4096 - x))) :
      Taken sb dev alloc s i x n
        (.error .assertionFailure { s with fsbuf := g })
  | partly (e : Halt) (s' : Fs)
      (free : Clear s.fsbuf x (min n (4096 - x)))
      (unfit : ¬ Fits sb (overBuf sb dev i s) (4096 * i + x) n)
      (kept : ∀ y, bit (overBuf sb dev i s) y = true →
        bit (s'.disk dev) y = true)
      (first : bit (s'.disk dev) (8 * mapByte sb + (4096 * i + x)) = true) :
      Taken sb dev alloc s i x n (.error e s')

/-- The state after sector `i` of the map is written. -/
def wrote (sb : SuperBlock) (dev : Int) (i : Nat) (s : Fs) : Fs :=
  { s with
    disk := Function.update s.disk dev (overBuf sb dev i s)
    writes := s.writes ++ mapWrites sb dev i 1 }

theorem wrote_disk : (wrote sb dev i s).disk dev = overBuf sb dev i s :=
  Function.update_self ..

/-- One sector: the run ends in it or goes on behind it. -/
theorem finish_step (ha : alloc ≠ 0) (h0 : 0 ≤ mapStart sb) (hn : 0 < n)
    (hx : x < 4096) (hsize : i + 1 + left = sb.nrSectMapSects.toNat)
    (hi : Addressed (mapStart sb + i))
    (hp : Marked s x (min n (4096 - x)) (alloc, n - min n (4096 - x)) (p s)) :
    Taken sb dev alloc s i x n ((p >>= finish sb dev left i) s) ∨
      (4096 - x < n ∧ Clear s.fsbuf x (4096 - x) ∧
        ∃ g, Marks (overBuf sb dev i s) (overBuf sb dev i { s with fsbuf := g })
            (8 * mapByte sb + (4096 * i + x)) (4096 - x) ∧
          (p >>= finish sb dev left i) s =
            rest sb dev left (i + 1) alloc (n - (4096 - x))
              (wrote sb dev i { s with fsbuf := g })) := by
  rcases hp with ⟨hclear, g, hg, hrun⟩ | ⟨hhole, g, hrun⟩
  · have hm := over_marks sb dev i hg (by omega)
    rw [run_bind_of hrun, finish, run_bind_of (writeBack_run ha h0 hi)]
    by_cases hdone : n ≤ 4096 - x
    · rw [Nat.min_eq_left hdone] at hm hclear ⊢
      have hlast : (4096 * i + x + n - 1) / 4096 = i := by omega
      have hfits : Fits sb (overBuf sb dev i s) (4096 * i + x) n := by
        refine ⟨(clear_over _ _ _ _ (by omega)).mpr hclear, ?_, ?_⟩
        · rw [mapSize]
          omega
        · rwa [hlast]
      have hdone' : Taken sb dev alloc s i x n _ := .done _ g hfits hm
      rw [show (x + n - 1) / 4096 + 1 = 1 by omega] at hdone'
      rw [if_pos (by omega)]
      exact Or.inl hdone'
    · rw [Nat.min_eq_right (by omega)] at hm hclear ⊢
      rw [if_neg (by omega)]
      exact Or.inr ⟨by omega, hclear, g, hm, rfl⟩
  · rw [run_bind_error hrun]
    exact Or.inl (.clean g hhole)

/-- The run goes on in the next sector. -/
theorem taken_append {g : Nat → Byte} {t : Fs}
    {r : EStateM.Result Halt Fs Int} (hlt : 4096 - x < n)
    (hmin : Clear s.fsbuf x (min n (4096 - x)))
    (hm : Marks (overBuf sb dev i s) (overBuf sb dev i { s with fsbuf := g })
      (8 * mapByte sb + (4096 * i + x)) (4096 - x))
    (hx : x < 4096)
    (hafter : Fits sb (overBuf sb dev i s) (4096 * i + x) n ↔
      Fits sb (overBuf sb dev i { s with fsbuf := g }) (4096 * (i + 1))
        (n - (4096 - x)))
    (ht : t = { wrote sb dev i { s with fsbuf := g } with
      fsbuf := t.fsbuf })
    (hover : overBuf sb dev (i + 1) t = overBuf sb dev i { s with fsbuf := g })
    (h : Taken sb dev alloc t (i + 1) 0 (n - (4096 - x)) r) :
    Taken sb dev alloc s i x n r := by
  have hstart : 8 * mapByte sb + (4096 * (i + 1) + 0) =
      8 * mapByte sb + (4096 * i + x) + (4096 - x) := by omega
  have hwritten : t.disk = Function.update s.disk dev
      (overBuf sb dev i { s with fsbuf := g }) := by rw [ht]; rfl
  have hset : ∀ y, bit (overBuf sb dev i s) y = true →
      bit (overBuf sb dev i { s with fsbuf := g }) y = true := by
    intro y hy
    rw [hm, hy, Bool.true_or]
  have hfirst : bit (overBuf sb dev i { s with fsbuf := g })
      (8 * mapByte sb + (4096 * i + x)) = true := by
    rw [hm, decide_eq_true (by omega), Bool.or_true]
  -- the rest of the bits decide, and the map written so far stays
  cases h with
  | done f' g' fits marks =>
      rw [hover] at fits marks
      rw [hstart] at marks
      have hall := marks_trans hm marks
      rw [show 4096 - x + (n - (4096 - x)) = n by omega] at hall
      have hdone : Taken sb dev alloc s i x n _ :=
        .done f' g' (hafter.mpr fits) hall
      rw [show (x + n - 1) / 4096 + 1 =
        1 + ((0 + (n - (4096 - x)) - 1) / 4096 + 1) by omega,
        mapWrites_append] at hdone
      rw [ht]
      simpa only [wrote, Function.update_idem, List.append_assoc] using hdone
  | clean g' hole =>
      have hdisk : t.disk dev = overBuf sb dev i { s with fsbuf := g } := by
        rw [hwritten, Function.update_self]
      refine .partly _ _ hmin ?_ ?_ ?_
      · intro hfits
        have hclear := (hafter.mp hfits).1
        rw [← hover] at hclear
        have hpart : Clear (mapOf sb (overBuf sb dev (i + 1) t))
            (4096 * (i + 1) + 0) (min (n - (4096 - x)) (4096 - 0)) :=
          clear_mono hclear (by omega) (by omega)
        exact hole ((clear_over _ _ _ _ (by omega)).mp hpart)
      · intro y hy
        exact (congrArg (bit · y) hdisk).trans (hset y hy)
      · exact (congrArg (bit · _) hdisk).trans hfirst
  | partly e s' free unfit kept first =>
      rw [hover] at unfit kept
      exact .partly e s' hmin (fun h => unfit (hafter.mp h))
        (fun y hy => kept y (hset y hy)) (kept _ hfirst)

/-- Behind a sector in which something was allocated. -/
theorem finish_taken (ha : alloc ≠ 0) (h0 : 0 ≤ mapStart sb) (hn : 0 < n)
    (hx : x < 4096) (hsize : i + 1 + left = sb.nrSectMapSects.toNat)
    (hi : Addressed (mapStart sb + i))
    (hp : Marked s x (min n (4096 - x)) (alloc, n - min n (4096 - x)) (p s)) :
    Taken sb dev alloc s i x n ((p >>= finish sb dev left i) s) := by
  induction left generalizing i x n p s with
  | zero =>
      rcases finish_step ha h0 hn hx hsize hi hp with hdone |
        ⟨hlt, hclear, g, hm, hrun⟩
      · exact hdone
      · rw [hrun, rest_zero (by omega)]
        refine .partly _ _ ?_ ?_ ?_ ?_
        · rwa [Nat.min_eq_right (by omega)]
        · rintro ⟨-, hle, -⟩
          rw [mapSize] at hle
          omega
        · intro y hy
          rw [wrote_disk, hm, hy, Bool.true_or]
        · rw [wrote_disk, hm, decide_eq_true (by omega), Bool.or_true]
  | succ left ih =>
      rcases finish_step ha h0 hn hx hsize hi hp with hdone |
        ⟨hlt, hclear, g, hm, hrun⟩
      · exact hdone
      · have hfree := (clear_over sb dev i s (by omega)).mpr hclear
        have hafter := fits_after hm hfree hlt
        have hmin : Clear s.fsbuf x (min n (4096 - x)) := by
          rwa [Nat.min_eq_right (by omega)]
        have hnext : 4096 * i + x + (4096 - x) = 4096 * (i + 1) := by omega
        rw [hnext] at hafter
        -- the next sector of the map is read, or is beyond the disk
        by_cases haddr : Addressed (mapStart sb + (i + 1 : Nat))
        · have hover := over_read sb dev (i + 1)
            (wrote sb dev i { s with fsbuf := g }) g
          have hbytes : ∀ t : Fs, Marked t (8 * 0)
              (min (n - (4096 - x)) (8 * 512))
              (alloc, n - (4096 - x) - min (n - (4096 - x)) (8 * 512))
              (allocBytes sb (i + 1) 512 0 alloc (n - (4096 - x)) t) :=
            fun t => allocBytes_marked ha
          rw [wrote_disk] at hover
          rw [hrun, rest_succ haddr, mapStart_toNat h0, wrote_disk]
          have hrest := fun t => ih (s := t) (x := 0) (by omega) (by omega)
            (by omega) haddr (hbytes t)
          exact taken_append hlt hmin hm hx hafter rfl hover (hrest _)
        · rw [hrun, rest_fault haddr]
          refine .partly _ _ hmin ?_ ?_ ?_
          · rintro ⟨-, -, hlast⟩
            exact haddr (addressed_of_le hlast (by omega) (by omega))
          · intro y hy
            rw [wrote_disk, hm, hy, Bool.true_or]
          · rw [wrote_disk, hm, decide_eq_true (by omega), Bool.or_true]

end Taken

/-! ## The first clear bit -/

section Scan

variable {sb : SuperBlock} {dev : Int} {left i j k n b : Nat} {s : Fs}

/-- The loop over the bits finds the lowest clear one. -/
theorem lowestClear_spec {c : Byte} : ∀ {fuel k : Nat},
    (∃ m, k ≤ m ∧ m < k + fuel ∧ c.getLsbD m = false) →
    lowestClear c fuel k < k + fuel ∧
      c.getLsbD (lowestClear c fuel k) = false ∧ k ≤ lowestClear c fuel k ∧
      ∀ m, k ≤ m → m < lowestClear c fuel k → c.getLsbD m = true := by
  intro fuel
  induction fuel with
  | zero =>
      rintro k ⟨m, h₁, h₂, -⟩
      omega
  | succ fuel ih =>
      rintro k ⟨m, h₁, h₂, hm⟩
      rw [lowestClear]
      by_cases hk : c.getLsbD k = true
      · have hne : m ≠ k := by
          rintro rfl
          exact absurd (hk.symm.trans hm) (by decide)
        obtain ⟨h₃, h₄, h₅, h₆⟩ := ih (k := k + 1) ⟨m, by omega, by omega, hm⟩
        rw [if_pos hk]
        refine ⟨by omega, h₄, by omega, fun m' h₇ h₈ => ?_⟩
        rcases Nat.lt_or_eq_of_le h₇ with hlt | rfl
        · exact h₆ m' hlt h₈
        · exact hk
      · rw [if_neg hk]
        exact ⟨by omega, Bool.eq_false_iff.mpr hk, Nat.le_refl _,
          fun m' h₇ h₈ => by omega⟩

/-- The byte `j` is full, or the loop on `k` finds its first clear bit. -/
theorem byte_cases (f : Nat → Byte) (j : Nat) :
    (f j = 0xFF ∧ AllSet f (8 * j) (8 * (j + 1))) ∨
      (f j ≠ 0xFF ∧ FirstClear f (8 * j) (8 * (j + 1))
        (8 * j + lowestClear (f j) 8 0)) := by
  have hbyte : ∀ y, 8 * j ≤ y → y < 8 * (j + 1) →
      bit f y = (f j).getLsbD (y - 8 * j) := by
    intro y h₁ h₂
    rw [← bit_byte (by omega), Nat.add_sub_cancel' h₁]
  by_cases hfull : f j = 0xFF
  · refine Or.inl ⟨hfull, fun y h₁ h₂ => ?_⟩
    have hones : ∀ k < 8, (0xFF : Byte).getLsbD k = true := by decide
    rw [hbyte y h₁ h₂, hfull]
    exact hones _ (by omega)
  · refine Or.inr ⟨hfull, ?_⟩
    have hex : ∃ m, 0 ≤ m ∧ m < 0 + 8 ∧ (f j).getLsbD m = false := by
      by_contra hall
      refine hfull (BitVec.eq_of_getLsbD_eq fun m hm => ?_)
      have hones : ∀ k < 8, (0xFF : Byte).getLsbD k = true := by decide
      rw [hones m hm]
      by_contra hne
      exact hall ⟨m, Nat.zero_le _, by omega, Bool.eq_false_iff.mpr hne⟩
    obtain ⟨h₁, h₂, -, h₄⟩ := lowestClear_spec hex
    refine ⟨by omega, by omega, ?_, fun y h₅ h₆ => ?_⟩
    · rwa [bit_byte (by omega)]
    · rw [hbyte y h₅ (by omega)]
      exact h₄ _ (by omega) (by omega)

/-- Full bytes are passed over. -/
theorem allocByte_full (h : s.fsbuf j = 0xFF) :
    allocByte sb i j 0 n s = .ok (0, n) s := by
  rw [allocByte, if_neg (by decide), run_get_bind, if_pos h]
  rfl

/-- A sector without a clear bit. -/
theorem allocBytes_full (hj : j + left = 512)
    (h : AllSet s.fsbuf (8 * j) 4096) :
    allocBytes sb i left j 0 n s = .ok (0, n) s := by
  induction left generalizing j with
  | zero => rfl
  | succ left ih =>
      rcases byte_cases s.fsbuf j with ⟨hfull, -⟩ | ⟨-, hfirst⟩
      · rw [allocBytes]
        by_cases hn : 0 < n
        · rw [if_pos hn, run_bind_of (allocByte_full hfull)]
          exact ih (by omega) fun y h₁ h₂ => h y (by omega) h₂
        · rw [if_neg hn]
          rfl
      · exact absurd (fun y h₁ h₂ => h y h₁ (by omega)) (not_allSet hfirst)

/-- The scan of the bytes comes to the first clear bit. -/
theorem allocBytes_skip (hj : j + left = 512) (hn : 0 < n)
    (h : FirstClear s.fsbuf (8 * j) 4096 b) :
    allocBytes sb i left j 0 n s =
      allocBytes sb i (512 - b / 8) (b / 8) 0 n s := by
  induction left generalizing j with
  | zero =>
      have := h.1
      have := h.2.1
      omega
  | succ left ih =>
      have hle := h.1
      rcases byte_cases s.fsbuf j with ⟨hfull, hset⟩ | ⟨-, hfirst⟩
      · rw [allocBytes, if_pos hn, run_bind_of (allocByte_full hfull)]
        exact ih (by omega) ((firstClear_skip hset (by omega)).mp h)
      · have hb : b = 8 * j + lowestClear (s.fsbuf j) 8 0 :=
          firstClear_unique h hfirst
        have hlt := hfirst.2.1
        rw [show b / 8 = j by omega, show 512 - j = left + 1 by omega]

/-- The first clear bit of the sector is that of its byte. -/
theorem firstClear_byte (h : FirstClear s.fsbuf (8 * j) 4096 b) :
    FirstClear s.fsbuf (8 * (b / 8)) (8 * (b / 8 + 1)) b := by
  obtain ⟨h₁, h₂, hb, hset⟩ := h
  exact ⟨by omega, by omega, hb, fun y h₃ h₄ => hset y (by omega) h₄⟩

/-- The number of the bit has to be an `int`. -/
theorem allocByte_fault (h : FirstClear s.fsbuf (8 * j) (8 * (j + 1)) b)
    (hb : 2147483648 ≤ 4096 * i + b) :
    allocByte sb i j 0 n s = .error .fault s := by
  rcases byte_cases s.fsbuf j with ⟨-, hset⟩ | ⟨hne, hfirst⟩
  · exact absurd hset (not_allSet h)
  · have hk := firstClear_unique h hfirst
    have hadd : ∀ a : Int, a = ((4096 * i + b : Nat) : Int) →
        intAdd (((i * 512 + j) * 8 : Nat) : Int)
          (lowestClear (s.fsbuf j) 8 0 : Nat) s = .error .fault s := by
      intro a ha
      rw [intAdd, if_neg (by omega)]
      rfl
    rw [allocByte, if_neg (by decide), run_get_bind, if_neg hne,
      run_bind_error (hadd _ rfl)]

/-- The first clear bit is chosen. -/
theorem allocByte_found (h : FirstClear s.fsbuf (8 * j) (8 * (j + 1)) b)
    (hb : 4096 * i + b < 2147483648) :
    allocByte sb i j 0 n s =
      (markBits j (8 - b % 8) (b % 8) n >>= fun n =>
        pure (sectorNr sb (4096 * i + b : Nat), n)) s := by
  rcases byte_cases s.fsbuf j with ⟨-, hset⟩ | ⟨hne, hfirst⟩
  · exact absurd hset (not_allSet h)
  · have hk := firstClear_unique h hfirst
    have hlt := hfirst.2.1
    have hadd : intAdd (((i * 512 + j) * 8 : Nat) : Int)
        (lowestClear (s.fsbuf j) 8 0 : Nat) s =
          .ok ((4096 * i + b : Nat) : Int) s :=
      run_intAdd.mpr ⟨by omega, by omega, rfl⟩
    rw [allocByte, if_neg (by decide), run_get_bind, if_neg hne,
      run_bind_of hadd, show lowestClear (s.fsbuf j) 8 0 = b % 8 by omega]

variable (sb i) in
/-- From the first clear bit on, the rest of its byte. -/
theorem allocByte_marked (h : FirstClear s.fsbuf (8 * j) (8 * (j + 1)) b)
    (hn : 0 < n) (hb : 4096 * i + b < 2147483648) :
    Marked s b (min n (8 - b % 8))
      (sectorNr sb (4096 * i + b : Nat), n - min n (8 - b % 8))
      (allocByte sb i j 0 n s) := by
  have h₁ := h.1
  have h₂ := h.2.1
  have hbits : Marked s (8 * j + b % 8) (min n (8 - b % 8))
      (n - min n (8 - b % 8)) (markBits j (8 - b % 8) (b % 8) n s) :=
    markBits_marked hn (by omega)
  have hbyte := marked_bind
    (q := fun n => (pure (sectorNr sb (4096 * i + b : Nat), n) : FsM _)) hbits
    fun g => marked_pure _
  rw [allocByte_found h hb]
  rwa [Nat.add_zero, show 8 * j + b % 8 = b by omega] at hbyte

/-- A sector that is not 0 ends the scan. -/
theorem allocBytes_found (hj : j ≤ 512) (hn : 0 < n)
    (h : FirstClear s.fsbuf (8 * j) 4096 b) (hb : 4096 * i + b < 2147483648)
    (hnr : sectorNr sb (4096 * i + b : Nat) ≠ 0) :
    Marked s b (min n (4096 - b))
      (sectorNr sb (4096 * i + b : Nat), n - min n (4096 - b))
      (allocBytes sb i (512 - j) j 0 n s) := by
  have hlt := h.2.1
  have hbyte := allocByte_marked sb i (firstClear_byte h) hn hb
  rw [allocBytes_skip (by omega) hn h,
    show 512 - b / 8 = 511 - b / 8 + 1 by omega, allocBytes, if_pos hn,
    show min n (4096 - b) = min n (8 - b % 8) +
      min (n - min n (8 - b % 8)) (8 * (511 - b / 8)) by omega]
  refine marked_bind hbyte fun g => ?_
  rcases Nat.lt_or_ge n (8 - b % 8) with hend | hgo
  · rw [show n - min n (8 - b % 8) = 0 by omega, Nat.zero_min, allocBytes_zero,
      Nat.add_zero, show n - min n (8 - b % 8) = 0 by omega]
    exact marked_pure _
  · rw [show b + min n (8 - b % 8) = 8 * (b / 8 + 1) by omega,
      show n - (min n (8 - b % 8) +
          min (n - min n (8 - b % 8)) (8 * (511 - b / 8))) =
        n - min n (8 - b % 8) -
          min (n - min n (8 - b % 8)) (8 * (511 - b / 8)) by omega]
    exact allocBytes_marked hnr

end Scan

/-! ## What an allocation comes to -/

/-- The sector of the bit `b` is read and its number computed. -/
def Reached (sb : SuperBlock) (b : Nat) : Prop :=
  0 ≤ mapStart sb ∧ Addressed (mapStart sb + (b / 4096 : Nat)) ∧
    b < 2147483648

/-- The bits that are marked before the next decision: those of the sector of
    the map, but only those of the byte where the sector chosen is number 0,
    which is taken for none. -/
def span (sb : SuperBlock) (b : Nat) : Nat :=
  if sectorNr sb b = 0 then 8 - b % 8 else 4096 - b % 4096

/-- The first clear bit starts a run of `n`. -/
def FirstRun (sb : SuperBlock) (f : Nat → Byte) (x n b : Nat) : Prop :=
  FirstClear (mapOf sb f) x (mapSize sb) b ∧ Reached sb b ∧
    sectorNr sb b ≠ 0 ∧ Fits sb f b n

/-- Looking for `n` bits from `x` on fails before a sector is written: all
    bits are set, or one of those that are marked together with the first
    clear bit is.  (After a sector of number 0 the search goes on.) -/
inductive HaltsClean (sb : SuperBlock) (f : Nat → Byte) : Nat → Nat → Prop
  | full {x n : Nat} (set : AllSet (mapOf sb f) x (mapSize sb))
      (read : ∀ i : Nat, i < sb.nrSectMapSects.toNat →
        Addressed (mapStart sb + i)) :
      HaltsClean sb f x n
  | hole {x n b : Nat} (first : FirstClear (mapOf sb f) x (mapSize sb) b)
      (reached : Reached sb b)
      (hole : ¬ Clear (mapOf sb f) b (min n (span sb b))) :
      HaltsClean sb f x n
  | zero {x n b : Nat} (first : FirstClear (mapOf sb f) x (mapSize sb) b)
      (reached : Reached sb b) (nr : sectorNr sb b = 0) (more : span sb b < n)
      (later : HaltsClean sb f (b + span sb b) (n - span sb b)) :
      HaltsClean sb f x n

/-- A run that neither allocates `n` bits nor fails cleanly.  It returns only
    where a sector has number 0. -/
inductive Spoils (sb : SuperBlock) (dev : Int) (s : Fs) (n : Nat) :
    EStateM.Result Halt Fs Int → Prop
  | fault (s' : Fs) : Spoils sb dev s n (.error .fault s')
  | changed (e : Halt) (s' : Fs) (y : Nat) (h : bit (s.disk dev) y = false)
      (h' : bit (s'.disk dev) y = true) : Spoils sb dev s n (.error e s')
  | unwritten (a : Int) (z : Nat) (s' : Fs) (hz : z < 2147483648)
      (nr : sectorNr sb z = 0) (h : s'.disk = s.disk) :
      Spoils sb dev s n (.ok a s')
  | short (b m z : Nat) (s' : Fs) (hz : z < 2147483648)
      (nr : sectorNr sb z = 0) (hm : m < n) (hb : b < 2147483648)
      (h : bit (mapOf sb (s'.disk dev)) (b + m) =
        bit (mapOf sb (s.disk dev)) (b + m)) :
      Spoils sb dev s n (.ok (sectorNr sb b) s')

/-- What looking for `n` bits from `x` on comes to.  The bits are marked on
    the device or on `h`. -/
inductive Outcome (sb : SuperBlock) (dev : Int) (s : Fs) (h : Nat → Byte)
    (x n : Nat) : EStateM.Result Halt Fs Int → Prop
  | clean (g : Nat → Byte) (halts : HaltsClean sb (s.disk dev) x n) :
      Outcome sb dev s h x n
        (.error .assertionFailure { s with fsbuf := g })
  | run (b : Nat) (f f' g : Nat → Byte)
      (first : FirstRun sb (s.disk dev) x n b)
      (base : f = s.disk dev ∨ f = h)
      (marks : Marks f f' (8 * mapByte sb + b) n) :
      Outcome sb dev s h x n (.ok (sectorNr sb b) { s with
        disk := Function.update s.disk dev f'
        writes := s.writes ++ mapWrites sb dev (b / 4096)
          ((b % 4096 + n - 1) / 4096 + 1)
        fsbuf := g })
  | spoiled (r : EStateM.Result Halt Fs Int)
      (halts : ¬ HaltsClean sb (s.disk dev) x n)
      (first : ∀ b, ¬ FirstRun sb (s.disk dev) x n b)
      (spoils : Spoils sb dev s n r) :
      Outcome sb dev s h x n r

section Outcome

variable {sb : SuperBlock} {dev : Int} {left i j n x y b : Nat} {s : Fs}
  {f h : Nat → Byte} {r : EStateM.Result Halt Fs Int}

/-- Bits that are set do not matter to where the allocation stops. -/
theorem haltsClean_skip (hs : AllSet (mapOf sb f) x y) (hxy : x ≤ y) :
    HaltsClean sb f x n ↔ HaltsClean sb f y n := by
  constructor
  · intro h
    cases h with
    | full set read => exact .full ((allSet_skip hs hxy).mp set) read
    | hole first reached hole =>
        exact .hole ((firstClear_skip hs hxy).mp first) reached hole
    | zero first reached nr more later =>
        exact .zero ((firstClear_skip hs hxy).mp first) reached nr more later
  · intro h
    cases h with
    | full set read => exact .full ((allSet_skip hs hxy).mpr set) read
    | hole first reached hole =>
        exact .hole ((firstClear_skip hs hxy).mpr first) reached hole
    | zero first reached nr more later =>
        exact .zero ((firstClear_skip hs hxy).mpr first) reached nr more later

/-- Nor to where the first run is. -/
theorem firstRun_skip (hs : AllSet (mapOf sb f) x y) (hxy : x ≤ y) :
    FirstRun sb f x n b ↔ FirstRun sb f y n b := by
  rw [FirstRun, FirstRun, firstClear_skip hs hxy]

/-- Set bits in front change nothing. -/
theorem outcome_skip (hs : AllSet (mapOf sb (s.disk dev)) x y) (hxy : x ≤ y)
    (ho : Outcome sb dev s h y n r) : Outcome sb dev s h x n r := by
  cases ho with
  | clean g halts => exact .clean g ((haltsClean_skip hs hxy).mpr halts)
  | run b f f' g first base marks =>
      exact .run b f f' g ((firstRun_skip hs hxy).mpr first) base marks
  | spoiled _ halts first spoils =>
      exact .spoiled r (fun h => halts ((haltsClean_skip hs hxy).mp h))
        (fun b h => first b ((firstRun_skip hs hxy).mp h)) spoils

/-- The outcome where the first clear bit is not reached. -/
theorem outcome_fault {s' : Fs}
    (hfirst : ∀ b, FirstClear (mapOf sb (s.disk dev)) x (mapSize sb) b →
      ¬ Reached sb b)
    (hread : AllSet (mapOf sb (s.disk dev)) x (mapSize sb) →
      ¬ ∀ i : Nat, i < sb.nrSectMapSects.toNat →
        Addressed (mapStart sb + i)) :
    Outcome sb dev s h x n (.error .fault s') := by
  refine .spoiled _ ?_ (fun b hb => hfirst b hb.1 hb.2.1) (.fault s')
  intro hc
  cases hc with
  | full set read => exact hread set read
  | hole first reached hole => exact hfirst _ first reached
  | zero first reached nr more later => exact hfirst _ first reached

/-- The outcome where the first clear bit is reached and its sector is not
    number 0. -/
theorem outcome_first (hb : FirstClear (mapOf sb (s.disk dev)) x (mapSize sb) b)
    (hr : Reached sb b) (hnr : sectorNr sb b ≠ 0)
    (hover : ∀ y, b ≤ y → bit (mapOf sb (overBuf sb dev (b / 4096) s)) y =
      bit (mapOf sb (s.disk dev)) y)
    (ht : Taken sb dev (sectorNr sb b) s (b / 4096) (b % 4096) n r) :
    Outcome sb dev s (overBuf sb dev (b / 4096) s) x n r := by
  have hdiv : 4096 * (b / 4096) + b % 4096 = b := Nat.div_add_mod b 4096
  have hspan : span sb b = 4096 - b % 4096 := if_neg hnr
  have hclear : ∀ {m}, Clear (mapOf sb (overBuf sb dev (b / 4096) s)) b m ↔
      Clear (mapOf sb (s.disk dev)) b m := clear_congr fun y h₁ _ => hover y h₁
  have hbuf : ∀ {m}, b % 4096 + m ≤ 4096 → (Clear s.fsbuf (b % 4096) m ↔
      Clear (mapOf sb (s.disk dev)) b m) := by
    intro m hm
    rw [← hclear, ← clear_over sb dev (b / 4096) s hm, hdiv]
  have hfits : Fits sb (overBuf sb dev (b / 4096) s) b n ↔
      Fits sb (s.disk dev) b n := by
    rw [Fits, Fits, hclear]
  cases ht with
  | done f' g fits marks =>
      rw [hdiv] at fits marks
      exact .run b _ f' g ⟨hb, hr, hnr, hfits.mp fits⟩ (Or.inr rfl) marks
  | clean g hole =>
      refine .clean g (.hole hb hr ?_)
      rw [hspan]
      exact fun h => hole ((hbuf (by omega)).mpr h)
  | partly e s' free unfit kept first =>
      rw [hdiv] at unfit first
      refine .spoiled _ ?_ ?_ (.changed e s' _ ?_ first)
      · intro hc
        cases hc with
        | full set read => exact not_allSet hb set
        | hole first' reached hole =>
            cases firstClear_unique hb first'
            rw [hspan] at hole
            exact hole ((hbuf (by omega)).mp free)
        | zero first' reached nr more later =>
            cases firstClear_unique hb first'
            exact hnr nr
      · rintro b' ⟨hb', -, -, hfit⟩
        cases firstClear_unique hb hb'
        exact unfit (hfits.mpr hfit)
      · rw [← bit_mapOf]
        exact hb.2.2.1

/-- Where it stops before it has written, there is no first run. -/
theorem not_firstRun (hc : HaltsClean sb f x n) : ¬ FirstRun sb f x n b := by
  rintro ⟨hb, -, hnr, hfit, -⟩
  cases hc with
  | full set read => exact not_allSet hb set
  | hole first reached hole =>
      cases firstClear_unique hb first
      exact hole (clear_mono hfit (Nat.le_refl _) (by omega))
  | zero first reached nr more later =>
      cases firstClear_unique hb first
      exact hnr nr

/-- Where the bits behind the first clear one can be marked and its sector is
    number 0, only the search that goes on can fail cleanly. -/
theorem haltsClean_zero (hb : FirstClear (mapOf sb f) x (mapSize sb) b)
    (hclear : Clear (mapOf sb f) b (min n (span sb b)))
    (hc : HaltsClean sb f x n) :
    span sb b < n ∧ HaltsClean sb f (b + span sb b) (n - span sb b) := by
  cases hc with
  | full set read => exact absurd set (not_allSet hb)
  | hole first reached hole =>
      cases firstClear_unique hb first
      exact absurd hclear hole
  | zero first reached nr more later =>
      cases firstClear_unique hb first
      exact ⟨more, later⟩

/-- What spoils a part spoils the whole, whatever the buffer held. -/
theorem spoils_mono {g : Nat → Byte} {m : Nat} (hm : m ≤ n)
    (h : Spoils sb dev { s with fsbuf := g } m r) : Spoils sb dev s n r := by
  cases h with
  | fault s' => exact .fault s'
  | changed e s' y h h' => exact .changed e s' y h h'
  | unwritten a z s' hz nr h => exact .unwritten a z s' hz nr h
  | short b k z s' hz nr hk hb h =>
      exact .short b k z s' hz nr (by omega) hb h

/-- The outcome where the search goes on behind a sector of number 0. -/
theorem outcome_zero {g h' : Nat → Byte}
    (hb : FirstClear (mapOf sb (s.disk dev)) x (mapSize sb) b)
    (hr : Reached sb b) (hnr : sectorNr sb b = 0) (hn : span sb b < n)
    (hclear : Clear (mapOf sb (s.disk dev)) b (min n (span sb b)))
    (hover : ∀ y, b + span sb b ≤ y →
      bit (mapOf sb h) y = bit (mapOf sb (s.disk dev)) y)
    (ho : Outcome sb dev { s with fsbuf := g } h (b + span sb b)
      (n - span sb b) r) :
    Outcome sb dev s h' x n r := by
  have hfirst : ∀ b', ¬ FirstRun sb (s.disk dev) x n b' := by
    rintro b' ⟨hb', -, hnr', -⟩
    cases firstClear_unique hb hb'
    exact hnr' hnr
  cases ho with
  | clean g halts => exact .clean g (.zero hb hr hnr hn halts)
  | run b' f f' g first base marks =>
      refine .spoiled _ (fun hc => ?_) hfirst
        (.short b' (n - span sb b) b _ hr.2.2 hnr ?_ first.2.1.2.2 ?_)
      · exact not_firstRun (haltsClean_zero hb hclear hc).2 first
      · have : 0 < span sb b := by
          rw [span, if_pos hnr]
          omega
        omega
      · have hle := first.1.1
        have hbit := bit_of_marks (marks_mapOf marks) (Nat.le_refl _)
        show bit (mapOf sb (Function.update s.disk dev f' dev)) _ = _
        rw [Function.update_self, hbit]
        rcases base with rfl | rfl
        · rfl
        · exact hover _ (by omega)
  | spoiled _ halts _ spoils =>
      exact .spoiled r (fun hc => halts (haltsClean_zero hb hclear hc).2)
        hfirst (spoils_mono (Nat.sub_le ..) spoils)

/-- The outcome in the words of another buffer. -/
theorem outcome_buf {g h' : Nat → Byte} (hh : h = s.disk dev ∨ h = h')
    (ho : Outcome sb dev { s with fsbuf := g } h x n r) :
    Outcome sb dev s h' x n r := by
  cases ho with
  | clean g halts => exact .clean g halts
  | run b f f' g first base marks =>
      refine .run b f f' g first ?_ marks
      rcases base with rfl | rfl
      · exact Or.inl rfl
      · exact hh
  | spoiled _ halts first spoils =>
      exact .spoiled r halts first (spoils_mono (Nat.le_refl n) spoils)

end Outcome

/-! ## The scan -/

section Scan

variable {sb : SuperBlock} {dev : Int} {left i j n c : Nat} {s : Fs}

/-- The buffer holds the rest of sector `i` from bit `x` on. -/
def Holds (sb : SuperBlock) (dev : Int) (i x : Nat) (s : Fs) : Prop :=
  ∀ y, x ≤ y → y < 4096 →
    bit s.fsbuf y = bit (mapOf sb (s.disk dev)) (4096 * i + y)

/-- Behind the place that is looked at, the map is that of the device. -/
theorem holds_over {x y : Nat} (h : Holds sb dev i x s) (hx : x ≤ 4096)
    (hy : 4096 * i + x ≤ y) :
    bit (mapOf sb (overBuf sb dev i s)) y = bit (mapOf sb (s.disk dev)) y := by
  rcases Nat.lt_or_ge y (4096 * (i + 1)) with hlt | hge
  · rw [show y = 4096 * i + (y - 4096 * i) by omega,
      bit_over _ _ _ _ (by omega)]
    exact h _ (by omega) (by omega)
  · exact bit_over_of_ne (Or.inr hge)

/-- A part of the buffer that is full is one of the map. -/
theorem holds_allSet {x : Nat} (h : Holds sb dev i x s)
    (hs : AllSet s.fsbuf x 4096) :
    AllSet (mapOf sb (s.disk dev)) (4096 * i + x) (4096 * (i + 1)) := by
  intro y h₁ h₂
  rw [show y = 4096 * i + (y - 4096 * i) by omega, ← h _ (by omega) (by omega)]
  exact hs _ (by omega) (by omega)

/-- The first clear bit of the buffer is that of the map. -/
theorem holds_firstClear {x : Nat} (h : Holds sb dev i x s)
    (hi : i < sb.nrSectMapSects.toNat) (hc : FirstClear s.fsbuf x 4096 c) :
    FirstClear (mapOf sb (s.disk dev)) (4096 * i + x) (mapSize sb)
      (4096 * i + c) := by
  obtain ⟨h₁, h₂, hbit, hset⟩ := hc
  refine ⟨by omega, by rw [mapSize]; omega, ?_, fun y h₃ h₄ => ?_⟩
  · rw [← h _ h₁ h₂, hbit]
  · rw [show y = 4096 * i + (y - 4096 * i) by omega,
      ← h _ (by omega) (by omega)]
    exact hset _ (by omega) (by omega)

/-- A run of the buffer is one of the map. -/
theorem holds_clear {x m : Nat} (h : Holds sb dev i x s) (hx : x ≤ c)
    (hm : c + m ≤ 4096) :
    Clear s.fsbuf c m ↔ Clear (mapOf sb (s.disk dev)) (4096 * i + c) m := by
  rw [← clear_over sb dev i s hm]
  exact clear_congr fun y h₁ _ => holds_over h (by omega) (by omega)

/-- Behind a sector in which nothing was allocated. -/
theorem finish_zero : finish sb dev left i (0, n) =
    if n = 0 then pure 0 else rest sb dev left (i + 1) 0 n := by
  rw [finish, writeBack, if_neg (fun h => h rfl), pure_bind]

/-- **ONE SECTOR** of the map is searched from byte `j` on. -/
theorem scan_sector (h0 : 0 ≤ mapStart sb) (hi : Addressed (mapStart sb + i))
    (hsize : i + 1 + left = sb.nrSectMapSects.toNat) (hj : j ≤ 512)
    (hn : 0 < n) (hs : Holds sb dev i (8 * j) s)
    (hrest : ∀ g n, 0 < n →
      Outcome sb dev { s with fsbuf := g } (s.disk dev) (4096 * (i + 1)) n
        (rest sb dev left (i + 1) 0 n { s with fsbuf := g })) :
    Outcome sb dev s (overBuf sb dev i s) (4096 * i + 8 * j) n
      ((allocBytes sb i (512 - j) j 0 n >>= finish sb dev left i) s) := by
  induction hd : 512 - j using Nat.strongRecOn generalizing j n s with
  | ind d ih =>
      subst hd
      rcases allSet_or_firstClear s.fsbuf (8 * j) 4096 with hset | ⟨c, hc⟩
      · -- nothing here: the search goes on in the next sector
        rw [run_bind_of (allocBytes_full (by omega) hset), finish_zero,
          if_neg (by omega)]
        exact outcome_skip (holds_allSet hs hset) (by omega)
          (outcome_buf (Or.inl rfl) (hrest s.fsbuf n hn))
      · have hfirst := holds_firstClear hs (by omega) hc
        have hlt := hc.2.1
        have hle := hc.1
        have hdiv : (4096 * i + c) / 4096 = i := by omega
        have hmod : (4096 * i + c) % 4096 = c := by omega
        have hskip : (allocBytes sb i (512 - j) j 0 n >>=
              finish sb dev left i) s =
            (allocByte sb i (c / 8) 0 n >>= fun r =>
              allocBytes sb i (511 - c / 8) (c / 8 + 1) r.1 r.2 >>=
                finish sb dev left i) s := by
          rw [run_bind_congr (allocBytes_skip (by omega) hn hc),
            show 512 - c / 8 = 511 - c / 8 + 1 by omega, allocBytes,
            if_pos hn, bind_assoc]
        rcases Nat.lt_or_ge (4096 * i + c) 2147483648 with hint | hbig
        · have hreached : Reached sb (4096 * i + c) :=
            ⟨h0, by rwa [hdiv], hint⟩
          by_cases hnr : sectorNr sb (4096 * i + c : Nat) = 0
          · have hspan : span sb (4096 * i + c) = 8 - c % 8 := by
              rw [span, if_pos hnr]
              omega
            have hend : 4096 * i + c + (8 - c % 8) =
              4096 * i + 8 * (c / 8 + 1) := by omega
            have hclear := holds_clear (m := min n (8 - c % 8)) hs hle
              (by omega)
            have hmark := allocByte_marked sb i (firstClear_byte hc) hn
              hint
            rw [← hspan] at hclear hmark
            rw [hnr] at hmark
            rw [hskip]
            rcases hmark with ⟨hfree, g, hg, hrun⟩ | ⟨hhole, g, hrun⟩
            · rw [run_bind_of hrun]
              rcases Nat.lt_or_ge (span sb (4096 * i + c)) n with hgo | hall
              · have hmin : min n (span sb (4096 * i + c)) = 8 - c % 8 := by
                  omega
                have hs' : Holds sb dev i (8 * (c / 8 + 1))
                    { s with fsbuf := g } := fun y h₁ h₂ =>
                  (bit_of_marks hg (by omega)).trans (hs y (by omega) h₂)
                have hgoes := ih (512 - (c / 8 + 1)) (by omega)
                  (n := n - (8 - c % 8)) (by omega) (by omega) hs' hrest rfl
                have hover : ∀ y, 4096 * i + c + span sb (4096 * i + c) ≤ y →
                    bit (mapOf sb (overBuf sb dev i { s with fsbuf := g })) y =
                      bit (mapOf sb (s.disk dev)) y := fun y hy =>
                  holds_over hs' (by omega) (by omega)
                rw [← hend, ← hspan] at hgoes
                rw [hmin, ← hspan,
                  show 511 - c / 8 = 512 - (c / 8 + 1) by omega]
                exact outcome_zero hfirst hreached hnr hgo (hclear.mp hfree)
                  hover hgoes
              · rw [show n - min n (span sb (4096 * i + c)) = 0 by omega,
                  allocBytes_zero, pure_bind, finish_zero, if_pos rfl]
                refine .spoiled _ (fun hc' => ?_) (fun b hb => ?_)
                  (.unwritten 0 _ _ hint hnr rfl)
                · have := (haltsClean_zero hfirst (hclear.mp hfree) hc').1
                  omega
                · cases firstClear_unique hb.1 hfirst
                  exact hb.2.2.1 hnr
            · rw [run_bind_error hrun]
              exact .clean g (.hole hfirst hreached fun h =>
                hhole (hclear.mpr h))
          · have htaken : Taken sb dev (sectorNr sb (4096 * i + c : Nat)) s i c
                n ((allocBytes sb i (512 - j) j 0 n >>=
                  finish sb dev left i) s) :=
              finish_taken hnr h0 hn hlt hsize hi
                (allocBytes_found hj hn hc hint hnr)
            have hover : ∀ y, 4096 * i + c ≤ y →
                bit (mapOf sb (overBuf sb dev i s)) y =
                  bit (mapOf sb (s.disk dev)) y := fun y hy =>
              holds_over hs (by omega) (by omega)
            have hrun := outcome_first (n := n) hfirst hreached hnr
              (by rwa [hdiv]) (by rwa [hdiv, hmod])
            rwa [hdiv] at hrun
        · rw [hskip, run_bind_error (allocByte_fault (firstClear_byte hc) hbig)]
          refine outcome_fault (fun b hb hr => ?_) fun hall =>
            absurd hall (not_allSet hfirst)
          have heq := firstClear_unique hb hfirst
          have hr2 := hr.2.2
          omega

/-- **THE MAP** is searched from sector `i` on. -/
theorem scan_rest (hsize : i + left = sb.nrSectMapSects.toNat) (hn : 0 < n)
    (hread : ∀ k : Nat, k < i → Addressed (mapStart sb + k)) :
    Outcome sb dev s (s.disk dev) (4096 * i) n
      (rest sb dev left i 0 n s) := by
  induction left generalizing i n s with
  | zero =>
      rw [rest_zero hn]
      refine .clean s.fsbuf (.full (fun y h₁ h₂ => ?_) fun k hk =>
        hread k (by omega))
      rw [mapSize] at h₂
      omega
  | succ left ih =>
      by_cases hi : Addressed (mapStart sb + i)
      · have h0 : 0 ≤ mapStart sb := by
          rcases Nat.eq_zero_or_pos i with rfl | hpos
          · have := hi.1
            omega
          · have := (hread 0 hpos).1
            omega
        have hread' : ∀ k : Nat, k < i + 1 → Addressed (mapStart sb + k) :=
          fun k hk => addressed_of_le hi (by omega) (by omega)
        have hover := over_read sb dev i s s.fsbuf
        rw [rest_succ hi, mapStart_toNat h0]
        refine outcome_buf (g := put s.fsbuf 0 512
          (drop (s.disk dev) (mapByte sb + 512 * i))) (Or.inl hover) ?_
        refine scan_sector (j := 0) h0 hi (by omega) (by omega) hn ?_ ?_
        · intro y _ hy
          rw [← bit_over sb dev i _ hy, hover]
        · intro g n hn
          exact ih (by omega) hn hread'
      · rw [rest_fault hi]
        refine outcome_fault (fun b hb hr => ?_) fun _ hall =>
          hi (hall i (by omega))
        have hb1 := hb.1
        have hr1 := hr.1
        exact hi (addressed_of_le hr.2.1 (by omega) (by omega))

end Scan

/-! ## The result of the allocation -/

/-- A run of `n` clear bits whose sectors are in the partition. -/
def Good (sb : SuperBlock) (f : Nat → Byte) (n b : Nat) : Prop :=
  Clear (mapOf sb f) b n ∧ b + n ≤ mapSize sb ∧ 1 ≤ b ∧
    b - 1 + sb.nr1stDataSect.toNat + n ≤ sb.nrSects.toNat

/-- A sector of the device has changed. -/
def Changed (f f' : Nat → Byte) (p : Nat) : Prop :=
  ∃ k < 512, f' (512 * p + k) ≠ f (512 * p + k)

/-- A result as it should be: with a run that will do the bits of one
    are set, on the device and nothing else, its first sector is returned and
    the sectors that changed are those written; without one the failure is
    reported and the devices are as they were. -/
def AllocSpec (sb : SuperBlock) (dev : Int) (n : Nat) (s : Fs) :
    EStateM.Result Halt Fs Int → Prop
  | .ok a s' => ∃ b, Good sb (s.disk dev) n b ∧
      a = (b - 1 + sb.nr1stDataSect.toNat : Nat) ∧
      Marks (s.disk dev) (s'.disk dev) (8 * mapByte sb + b) n ∧
      (∀ d, d ≠ dev → s'.disk d = s.disk d) ∧
      ∃ ws, s'.writes = s.writes ++ ws ∧ ∀ w, w ∈ ws ↔
        ∃ p, w = (dev, p, 1) ∧ Changed (s.disk dev) (s'.disk dev) p
  | .error e s' => (∀ b, ¬ Good sb (s.disk dev) n b) ∧
      (e = .assertionFailure ∨ e = .panic) ∧ s'.disk = s.disk

/-- **WHEN IT DOES**: the first clear bit of the map starts a run that will do
    and whose numbers are `int`s, or no run will do and the search fails before
    a sector is written. -/
def AllocCond (sb : SuperBlock) (f : Nat → Byte) (n : Nat) : Prop :=
  (∃ b, FirstRun sb f 0 n b ∧ Good sb f n b ∧
      b - 1 + sb.nr1stDataSect.toNat < 2147483648) ∨
    ((∀ b, ¬ Good sb f n b) ∧ HaltsClean sb f 0 n)

section Allocation

variable {sb : SuperBlock} {dev : Int} {n b p : Nat} {s : Fs}
  {f f' : Nat → Byte}

/-- The number of the sector, as the code computes it. -/
theorem sectorNr_bmod :
    sectorNr sb b =
      ((b : Int) - 1 + sb.nr1stDataSect.toNat).bmod 4294967296 := by
  rw [sectorNr, BitVec.toInt_add, BitVec.toInt_ofInt,
    BitVec.toInt_eq_toNat_bmod sb.nr1stDataSect]
  simp

/-- It does not overflow below 2^31. -/
theorem sectorNr_eq (h1 : 1 ≤ b)
    (hlt : b - 1 + sb.nr1stDataSect.toNat < 2147483648) :
    sectorNr sb b = (b - 1 + sb.nr1stDataSect.toNat : Nat) := by
  rw [sectorNr_bmod, Int.bmod_def]
  omega

/-- A sector number that is right is one of an `int`, and of that bit. -/
theorem sectorNr_inj {b' : Nat} (h1 : 1 ≤ b') (hb : b < 2147483648)
    (hb' : b' < 4294967296)
    (h : sectorNr sb b = (b' - 1 + sb.nr1stDataSect.toNat : Nat)) :
    b' = b ∧ b' - 1 + sb.nr1stDataSect.toNat < 2147483648 := by
  have hnr := sb.nr1stDataSect.isLt
  rw [sectorNr_bmod, Int.bmod_def] at h
  omega

/-- The sectors that change are those with a bit of the run. -/
theorem changed_iff (h : Marks f f' b n) (hc : Clear f b n) :
    Changed f f' p ↔ ∃ y, b ≤ y ∧ y < b + n ∧ y / 4096 = p := by
  constructor
  · rintro ⟨k, hk, hne⟩
    by_contra hno
    refine hne (BitVec.eq_of_getLsbD_eq fun m hm => ?_)
    rw [← bit_byte hm, ← bit_byte hm, h, decide_eq_false, Bool.or_false]
    rintro ⟨h₁, h₂⟩
    exact hno ⟨_, h₁, h₂, by omega⟩
  · rintro ⟨y, h₁, h₂, rfl⟩
    refine ⟨y / 8 - 512 * (y / 4096), by omega, fun heq => ?_⟩
    have hbit := h y
    rw [show 512 * (y / 4096) + (y / 8 - 512 * (y / 4096)) = y / 8 by omega]
      at heq
    rw [bit, heq, ← bit, hc y h₁ h₂, decide_eq_true ⟨h₁, h₂⟩] at hbit
    exact absurd hbit (by decide)

/-- Which sectors of the map are written. -/
theorem mem_mapWrites {i k : Nat} {w : Int × Nat × Nat} :
    w ∈ mapWrites sb dev i k ↔ ∃ p, w = (dev, p, 1) ∧
      (mapStart sb).toNat + i ≤ p ∧ p < (mapStart sb).toNat + i + k := by
  simp only [mapWrites, List.mem_map, List.mem_range'_1]
  constructor
  · rintro ⟨p, hp, rfl⟩
    exact ⟨p, rfl, hp⟩
  · rintro ⟨p, rfl, hp⟩
    exact ⟨p, hp, rfl⟩

/-- The sectors written are those that changed. -/
theorem writes_changed {w : Int × Nat × Nat} (hn : 0 < n)
    (h : Marks f f' (8 * mapByte sb + b) n)
    (hc : Clear f (8 * mapByte sb + b) n) :
    w ∈ mapWrites sb dev (b / 4096) ((b % 4096 + n - 1) / 4096 + 1) ↔
      ∃ p, w = (dev, p, 1) ∧ Changed f f' p := by
  have hsect : ∀ p, ((mapStart sb).toNat + b / 4096 ≤ p ∧
      p < (mapStart sb).toNat + b / 4096 +
        ((b % 4096 + n - 1) / 4096 + 1)) ↔ Changed f f' p := by
    intro p
    rw [changed_iff h hc, mapByte]
    constructor
    · intro hp
      refine ⟨max (4096 * p) (8 * (512 * (mapStart sb).toNat) + b), ?_⟩
      omega
    · rintro ⟨y, h₁, h₂, rfl⟩
      omega
  rw [mem_mapWrites]
  simp only [hsect]

/-- A run of the map is one of the device. -/
theorem clear_mapOf :
    Clear (mapOf sb f) b n ↔ Clear f (8 * mapByte sb + b) n := by
  constructor
  · intro h y h₁ h₂
    rw [show y = 8 * mapByte sb + (y - 8 * mapByte sb) by omega, ← bit_mapOf]
    exact h _ (by omega) (by omega)
  · intro h y h₁ h₂
    rw [bit_mapOf]
    exact h _ (by omega) (by omega)

/-- A run that will do is below 2^32. -/
theorem good_lt (h : Good sb f n b) (hn : 0 < n) : b < 4294967296 := by
  have hle := h.2.2.2
  have hlt := sb.nrSects.isLt
  omega

/-- When the bits of the first run are set the result is right as long as the
    run will do. -/
theorem spec_of_run {s' : Fs} (hn : 0 < n)
    (hfirst : FirstRun sb (s.disk dev) 0 n b)
    (hm : Marks (s.disk dev) f' (8 * mapByte sb + b) n)
    (hdisk : s'.disk = Function.update s.disk dev f')
    (hwrites : s'.writes = s.writes ++ mapWrites sb dev (b / 4096)
      ((b % 4096 + n - 1) / 4096 + 1)) :
    AllocSpec sb dev n s (.ok (sectorNr sb b) s') ↔
      Good sb (s.disk dev) n b ∧
        b - 1 + sb.nr1stDataSect.toNat < 2147483648 := by
  have hclear := hfirst.2.2.2.1
  have hint := hfirst.2.1.2.2
  have hself : s'.disk dev = f' := by
    rw [hdisk, Function.update_self]
  constructor
  · rintro ⟨b', hgood, ha, hm', -⟩
    rw [hself] at hm'
    have hb := marks_start hm hm' (clear_mapOf.mp hclear)
      (clear_mapOf.mp hgood.1) hn
    obtain rfl : b = b' := by omega
    exact ⟨hgood, (sectorNr_inj hgood.2.2.1 hint (good_lt hgood hn) ha).2⟩
  · rintro ⟨hgood, hlt⟩
    refine ⟨b, hgood, sectorNr_eq hgood.2.2.1 hlt, ?_, fun d hd => ?_, _,
      hwrites, fun w => ?_⟩
    · rwa [hself]
    · rw [hdisk, Function.update_of_ne hd]
    · rw [hself]
      exact writes_changed hn hm (clear_mapOf.mp hclear)

/-- What spoils a run spoils the result. -/
theorem not_spec_of_spoils {r : EStateM.Result Halt Fs Int} (hn : 0 < n)
    (h : Spoils sb dev s n r) : ¬ AllocSpec sb dev n s r := by
  cases h with
  | fault s' =>
      rintro ⟨-, he, -⟩
      rcases he with he | he <;> cases he
  | changed e s' y h h' =>
      rintro ⟨-, -, hdisk⟩
      rw [hdisk] at h'
      exact absurd (h.symm.trans h') (by decide)
  | unwritten a z s' hz nr hsame =>
      rintro ⟨b, hgood, -, hm, -⟩
      rw [hsame] at hm
      have hset := hm (8 * mapByte sb + b)
      rw [decide_eq_true (by omega), Bool.or_true] at hset
      have hfree := clear_mapOf.mp hgood.1 _ (Nat.le_refl _) (by omega)
      exact absurd (hset.symm.trans hfree) (by decide)
  | short b m z s' hz nr hm hb hsame =>
      rintro ⟨b', hgood, ha, hmarks, -⟩
      obtain rfl :=
        (sectorNr_inj hgood.2.2.1 hb (good_lt hgood hn) ha).1
      have hset := marks_mapOf hmarks (b' + m)
      rw [hgood.1 _ (by omega) (by omega), decide_eq_true (by omega), hsame,
        hgood.1 _ (by omega) (by omega)] at hset
      exact absurd hset (by decide)

/-- **EVERY OUTCOME** of the allocation. -/
theorem alloc_outcome (hsb : s.superOf dev = some sb) (hn : 0 < n) :
    Outcome sb dev s (s.disk dev) 0 n (allocSectMapBit dev n s) := by
  have hrun : allocSectMapBit dev n s =
      rest sb dev sb.nrSectMapSects.toNat 0 0 n s :=
    run_bind_of (run_getSuperBlock.mpr ⟨hsb, rfl⟩)
  rw [hrun]
  exact scan_rest (Nat.zero_add _) hn fun k hk => absurd hk (Nat.not_lt_zero k)

/-- Where no sector has number 0 an allocation that returns has set the first
    clear bit and those behind it. -/
theorem alloc_run {a : Int} {s' : Fs} (hsb : s.superOf dev = some sb)
    (hn : 0 < n) (hnr : ∀ z : Nat, z < 2147483648 → sectorNr sb z ≠ 0)
    (h : allocSectMapBit dev n s = .ok a s') :
    ∃ b f' g, FirstRun sb (s.disk dev) 0 n b ∧ a = sectorNr sb b ∧
      Marks (s.disk dev) f' (8 * mapByte sb + b) n ∧
      s' = { s with
        disk := Function.update s.disk dev f'
        writes := s.writes ++ mapWrites sb dev (b / 4096)
          ((b % 4096 + n - 1) / 4096 + 1)
        fsbuf := g } := by
  have ho := alloc_outcome hsb hn
  rw [h] at ho
  cases ho with
  | run b f f' g first base marks =>
      have hf : f = s.disk dev := base.elim id id
      rw [hf] at marks
      exact ⟨b, f', g, first, rfl, marks, rfl⟩
  | spoiled _ halts first spoils =>
      cases spoils with
      | unwritten a z s' hz nr h => exact absurd nr (hnr z hz)
      | short b m z s' hz nr hm hb h => exact absurd nr (hnr z hz)

/-- A run at the first clear bit is allocated. -/
theorem alloc_of_firstRun (hsb : s.superOf dev = some sb) (hn : 0 < n)
    (hfirst : FirstRun sb (s.disk dev) 0 n b) :
    ∃ s', allocSectMapBit dev n s = .ok (sectorNr sb b) s' ∧
      s'.superBlockTable = s.superBlockTable := by
  have ho := alloc_outcome hsb hn
  generalize allocSectMapBit dev n s = r at ho
  cases ho with
  | clean g halts => exact absurd hfirst (not_firstRun halts)
  | run b' f f' g first base marks =>
      obtain rfl : b = b' := firstClear_unique hfirst.1 first.1
      exact ⟨_, rfl, rfl⟩
  | spoiled _ halts first spoils => exact absurd hfirst (first b)

/-- **ALLOCATION OF SECTORS**: with a run that will do the function allocates
    one, and without one it fails with the map as it was, exactly when the
    first clear bit starts such a run or the search stops in time. -/
theorem alloc_iff (hsb : s.superOf dev = some sb) (hn : 0 < n) :
    AllocSpec sb dev n s (allocSectMapBit dev n s) ↔
      AllocCond sb (s.disk dev) n := by
  have ho := alloc_outcome hsb hn
  generalize allocSectMapBit dev n s = r at ho
  cases ho with
  | clean g halts =>
      constructor
      · rintro ⟨hno, -, -⟩
        exact Or.inr ⟨hno, halts⟩
      · rintro (⟨b, hfirst, -⟩ | ⟨hno, -⟩)
        · exact absurd hfirst (not_firstRun halts)
        · exact ⟨hno, Or.inl rfl, rfl⟩
  | run b f f' g hfirst base marks =>
      have hf : f = s.disk dev := base.elim id id
      rw [hf] at marks
      rw [spec_of_run hn hfirst marks rfl rfl]
      constructor
      · rintro ⟨hgood, hlt⟩
        exact Or.inl ⟨b, hfirst, hgood, hlt⟩
      · rintro (⟨b', hfirst', hgood, hlt⟩ | ⟨-, halts⟩)
        · cases firstClear_unique hfirst.1 hfirst'.1
          exact ⟨hgood, hlt⟩
        · exact absurd hfirst (not_firstRun halts)
  | spoiled _ halts first spoils =>
      constructor
      · intro h
        exact absurd h (not_spec_of_spoils hn spoils)
      · rintro (⟨b, hfirst, -⟩ | ⟨-, hc⟩)
        · exact absurd hfirst (first b)
        · exact absurd hc halts

end Allocation

/-! ## A disk of 20 megabytes

    `mkfs` makes eleven sectors of sector map.  `cmd.tar` has the bits from
    32499 on; between it and the root directory there is room for 14 files and
    1778 sectors. -/

/-- A device with ten sectors of map. -/
def demoSuper : SuperBlock where
  magic := 0x111
  nrInodes := 4096
  nrSects := 40960
  nrInodeMapSects := 1
  nrSectMapSects := 11
  nr1stDataSect := 270
  nrInodeSects := 256
  rootInode := 1
  inodeSize := 32
  inodeIsizeOff := 4
  inodeStartOff := 8
  dirEntSize := 16
  dirEntInodeOff := 0
  dirEntFnameOff := 4
  sbDev := ROOT_DEV_NR

/-- The map after `k` files. -/
def demoMap (k j : Nat) : Byte :=
  if j < 256 * (k + 1) then 0xFF
  else if j = 256 * (k + 1) then 0x01
  else if j < 4062 then 0
  else if j = 4062 then 0xF8
  else if j < 4318 then 0xFF
  else if j = 4318 then 0x07
  else 0

theorem demo_root : 0 < NR_INODE := by decide

/-- A device whose map has all bits set but some. -/
def demoFs (k : Nat) : Fs where
  disk := fun _ x => demoMap k (x - 1536)
  writes := []
  fsbuf := fun _ => 0
  superBlockTable := fun _ => demoSuper
  inodeTable := fun _ => ⟨0, 0, 0, 0, 0, 0, 0⟩
  fileDescTable := fun _ => ⟨0, 0, 0, none⟩
  fileDesc := fun _ _ => none
  rootInode := ⟨0, demo_root⟩

theorem demoFs_super (k : Nat) :
    (demoFs k).superOf ROOT_DEV_NR = some demoSuper := rfl

/-- The bits of that map. -/
theorem demo_bit {k y : Nat} (hk : k ≤ 14) :
    bit (mapOf demoSuper ((demoFs k).disk ROOT_DEV_NR)) y =
      decide (y < 2049 + 2048 * k ∨ 32499 ≤ y ∧ y < 34547) := by
  have hmap : mapOf demoSuper ((demoFs k).disk ROOT_DEV_NR) = demoMap k := by
    funext j
    have hbyte : mapByte demoSuper = 1536 := by decide
    rw [mapOf, drop, hbyte]
    simp only [demoFs, Nat.add_sub_cancel_left]
  have hfull : ∀ m < 8, (0xFF : Byte).getLsbD m = true := by decide
  have hlow : ∀ m < 8, (0x01 : Byte).getLsbD m = decide (m = 0) := by decide
  have hhigh : ∀ m < 8, (0xF8 : Byte).getLsbD m = decide (3 ≤ m) := by decide
  have hlast : ∀ m < 8, (0x07 : Byte).getLsbD m = decide (m < 3) := by decide
  have hm : y % 8 < 8 := Nat.mod_lt _ (by decide)
  rw [hmap, bit, demoMap]
  split_ifs
  · rw [hfull _ hm, decide_eq_true (by omega)]
  · rw [hlow _ hm]
    exact decide_eq_decide.mpr (by omega)
  · rw [decide_eq_false (by omega)]
    exact BitVec.getLsbD_zero
  · rw [hhigh _ hm]
    exact decide_eq_decide.mpr (by omega)
  · rw [hfull _ hm, decide_eq_true (by omega)]
  · rw [hlast _ hm]
    exact decide_eq_decide.mpr (by omega)
  · rw [decide_eq_false (by omega)]
    exact BitVec.getLsbD_zero

/-- Its first clear bit. -/
theorem demo_first {k : Nat} (hk : k ≤ 14) :
    FirstClear (mapOf demoSuper ((demoFs k).disk ROOT_DEV_NR)) 0
      (mapSize demoSuper) (2049 + 2048 * k) := by
  have hsize : mapSize demoSuper = 45056 := by decide
  refine ⟨Nat.zero_le _, by omega, ?_, fun y _ hy => ?_⟩
  · rw [demo_bit hk]
    exact decide_eq_false (by omega)
  · rw [demo_bit hk]
    exact decide_eq_true (by omega)

/-- The first file of a fresh file system gets its sectors. -/
theorem alloc_iff_first_file :
    AllocSpec demoSuper ROOT_DEV_NR 2048 (demoFs 0)
      (allocSectMapBit ROOT_DEV_NR 2048 (demoFs 0)) := by
  have hclear : Clear (mapOf demoSuper ((demoFs 0).disk ROOT_DEV_NR)) 2049
      2048 := by
    intro y h₁ h₂
    rw [demo_bit (Nat.zero_le _)]
    exact decide_eq_false (by omega)
  have hiff := alloc_iff (demoFs_super 0) (show 0 < 2048 by decide)
  rw [hiff]
  refine Or.inl ⟨2049, ?_, ?_, by decide⟩
  · exact ⟨demo_first (Nat.zero_le _), ⟨by decide, by decide, by decide⟩,
      by decide, hclear, by decide, by decide⟩
  · exact ⟨hclear, by decide, by decide, by decide⟩

/-- The fifteenth does not, with room for it behind `cmd.tar`. -/
theorem alloc_misses_run :
    ¬ AllocSpec demoSuper ROOT_DEV_NR 2048 (demoFs 14)
      (allocSectMapBit ROOT_DEV_NR 2048 (demoFs 14)) := by
  have hgood : Good demoSuper ((demoFs 14).disk ROOT_DEV_NR) 2048 34547 := by
    refine ⟨fun y h₁ h₂ => ?_, by decide, by decide, by decide⟩
    rw [demo_bit (Nat.le_refl _)]
    exact decide_eq_false (by omega)
  have ho := alloc_outcome (demoFs_super 14) (show 0 < 2048 by decide)
  generalize allocSectMapBit ROOT_DEV_NR 2048 (demoFs 14) = r at ho
  cases ho with
  | clean g halts => exact fun h => h.1 34547 hgood
  | run b f f' g hfirst base marks =>
      cases firstClear_unique hfirst.1 (demo_first (Nat.le_refl _))
      have hfree := hfirst.2.2.2.1 32499 (by omega) (by omega)
      rw [demo_bit (Nat.le_refl _)] at hfree
      exact absurd hfree (by decide)
  | spoiled _ halts first spoils =>
      exact not_spec_of_spoils (by decide) spoils

end KosSectorMap
