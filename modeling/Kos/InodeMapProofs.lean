import Kos.MkfsProofs
import Kos.OpenFileProofs

/-! # Allocation of inode numbers

    `alloc_inode_map_bit` returns from inside its loop over the sectors of the
    inode map: only the first is looked at, and the `panic` behind the loop is
    never reached.

    * With a clear bit in the first sector the function takes the first one;
      without one it returns 0, the number of no inode (`allocInode_cases`);
    * so it keeps its promise exactly when there is one (`allocInode_iff`). -/

namespace KosInodeMap

open Overlay
open BitMap
open KosFs
open KosKernel (Halt)
open KosMkfs
open KosOpenFile

/-- The inode map: the sectors from number 2 on. -/
def inodeMap (f : Nat → Byte) : Nat → Byte := drop f 1024

/-- The number of its bits. -/
def mapSize (sb : SuperBlock) : Nat := 4096 * sb.nrInodeMapSects.toNat

section Alloc

variable {sb : SuperBlock} {dev : Int} {s : Fs}

/-- With a sector to look at the function returns. -/
theorem allocInode_ok (hsb : s.superOf dev = some sb)
    (hn : sb.nrInodeMapSects ≠ 0) :
    ∃ nr s', allocInodeMapBit dev s = .ok nr s' := by
  have hget : getSuperBlock dev s = .ok sb s :=
    run_getSuperBlock.mpr ⟨hsb, rfl⟩
  have haddr : Addressed 2 := by decide
  have hrd : rdSects dev 2 1 s = .ok () _ := run_rdSects.mpr ⟨haddr, rfl⟩
  have hwr : ∀ t : Fs, ∃ t', wrSects dev 2 1 t = .ok () t' :=
    fun t => ⟨_, run_wrSects.mpr ⟨haddr, rfl⟩⟩
  rw [allocInodeMapBit, run_bind_of hget, if_neg hn, run_bind_of hrd,
    run_get_bind]
  dsimp only
  cases openByte (put s.fsbuf 0 (512 * 1)
      (drop (s.disk dev) (512 * (2 : Int).toNat))) 512 0 with
  | none => exact ⟨_, _, rfl⟩
  | some j =>
      have hset : ∀ (f : (Nat → Byte) → Nat → Byte) (t : Fs),
          setBuf f t = .ok () { t with fsbuf := f t.fsbuf } := fun _ _ => rfl
      dsimp only
      rw [run_bind_of (hset _ _)]
      obtain ⟨t', ht'⟩ := hwr _
      rw [run_bind_of ht']
      exact ⟨_, _, rfl⟩

/-- The first clear bit of the first sector is taken; without one nothing is
    written and the result is 0. -/
theorem allocInode_cases (hsb : s.superOf dev = some sb)
    (hn : sb.nrInodeMapSects ≠ 0) :
    (AllSet (inodeMap (s.disk dev)) 0 4096 ∧
      ∃ g, allocInodeMapBit dev s = .ok 0 { s with fsbuf := g }) ∨
    ∃ b f' g, FirstClear (inodeMap (s.disk dev)) 0 4096 b ∧
      Marks (s.disk dev) f' (8 * 1024 + b) 1 ∧
      allocInodeMapBit dev s = .ok (b : Nat) { s with
        disk := Function.update s.disk dev f'
        writes := s.writes ++ [(dev, 2, 1)]
        fsbuf := g } := by
  obtain ⟨nr, s', hrun⟩ := allocInode_ok hsb hn
  rcases run_allocInodeMapBit hrun with ⟨rfl, hset, g, rfl⟩ |
    ⟨b, f', g, hfirst, rfl, hmarks, rfl⟩
  · exact Or.inl ⟨hset, g, hrun⟩
  · exact Or.inr ⟨b, f', g, hfirst, hmarks, hrun⟩

/-- A result as it should be: the smallest clear number is returned, it
    is not 0, so that there is an inode of that number, and its bit is set and
    nothing else; without one the function panics and the devices are as they
    were. -/
def AllocSpec (sb : SuperBlock) (dev : Int) (s : Fs) :
    EStateM.Result Halt Fs Int → Prop
  | .ok nr s' => ∃ b : Nat,
      FirstClear (inodeMap (s.disk dev)) 0 (mapSize sb) b ∧ nr = b ∧
      nr ≠ INVALID_INODE ∧
      Marks (s.disk dev) (s'.disk dev) (8 * 1024 + b) 1 ∧
      (∀ d, d ≠ dev → s'.disk d = s.disk d) ∧
      ∀ t t', getFileInode dev nr t ≠ .ok none t'
  | .error e s' => AllSet (inodeMap (s.disk dev)) 0 (mapSize sb) ∧
      e = .panic ∧ s'.disk = s.disk

/-- **WHEN IT DOES**: some bit of the first sector of the map is clear.  A map
    without sectors is full. -/
def AllocCond (sb : SuperBlock) (f : Nat → Byte) : Prop :=
  sb.nrInodeMapSects = 0 ∨ ∃ y < 4096, bit (inodeMap f) y = false

/-- Only the number 0 has no inode. -/
theorem getFileInode_ne_none {nr : Int} (hnr : nr ≠ 0) (t t' : Fs) :
    getFileInode dev nr t ≠ .ok none t' := by
  intro h
  obtain ⟨i, hi, -⟩ := run_getFileInode hnr h
  cases hi

/-- **INODE NUMBERS** are allocated as they should be exactly when the first
    sector of the inode map is not full. -/
theorem allocInode_iff (hsb : s.superOf dev = some sb)
    (h0 : bit (inodeMap (s.disk dev)) 0 = true) :
    AllocSpec sb dev s (allocInodeMapBit dev s) ↔
      AllocCond sb (s.disk dev) := by
  by_cases hn : sb.nrInodeMapSects = 0
  · have hrun : allocInodeMapBit dev s = .error .panic s := by
      rw [allocInodeMapBit, run_bind_of (run_getSuperBlock.mpr ⟨hsb, rfl⟩),
        if_pos hn]
      rfl
    rw [hrun]
    refine ⟨fun _ => Or.inl hn, fun _ => ⟨fun y _ hy => ?_, rfl, rfl⟩⟩
    rw [mapSize, hn] at hy
    exact absurd hy (Nat.not_lt_zero y)
  · have hpos : 0 < sb.nrInodeMapSects.toNat := by
      refine Nat.pos_of_ne_zero fun hz => hn (BitVec.eq_of_toNat_eq ?_)
      rw [hz]
      rfl
    rcases allocInode_cases hsb hn with ⟨hset, g, hrun⟩ |
      ⟨b, f', g, hfirst, hmarks, hrun⟩
    · rw [hrun]
      constructor
      · rintro ⟨b, -, -, hne, -⟩
        exact absurd rfl hne
      · rintro (hz | ⟨y, hy, hclear⟩)
        · exact absurd hz hn
        · have htrue := hset y (Nat.zero_le _) hy
          exact absurd (htrue.symm.trans hclear) (by decide)
    · rw [hrun]
      obtain ⟨hlo, hhi, hclear, hbefore⟩ := hfirst
      have hb : (b : Int) ≠ 0 := by
        intro hz
        have hb0 : b = 0 := by omega
        rw [hb0, h0] at hclear
        exact absurd hclear (by decide)
      refine ⟨fun _ => Or.inr ⟨b, hhi, hclear⟩, fun _ => ?_⟩
      refine ⟨b, ⟨hlo, ?_, hclear, hbefore⟩, rfl, hb, ?_, fun d hd => ?_,
        fun t t' => getFileInode_ne_none hb t t'⟩
      · rw [mapSize]
        omega
      · show Marks (s.disk dev) (Function.update s.disk dev f' dev) _ 1
        rw [Function.update_self]
        exact hmarks
      · exact Function.update_of_ne hd ..

end Alloc

/-- A map with one bit clear, that of number 12. -/
def demoMap (a : Nat) : Byte := if a = 1025 then 0xEF else 0xFF

theorem allocInode_iff_twelve :
    AllocSpec (superBlock 40960 ROOT_DEV_NR) ROOT_DEV_NR
      (demoFs demoMap (demoRoot 80))
      (allocInodeMapBit ROOT_DEV_NR (demoFs demoMap (demoRoot 80))) := by
  have h0 : bit (inodeMap demoMap) 0 = true := by decide
  have hclear : bit (inodeMap demoMap) 12 = false := by decide
  have hsb : (demoFs demoMap (demoRoot 80)).superOf ROOT_DEV_NR =
      some (superBlock 40960 ROOT_DEV_NR) := rfl
  exact (allocInode_iff hsb h0).mpr (Or.inr ⟨12, by decide, hclear⟩)

/-- A map with all bits set. -/
def fullMap (_ : Nat) : Byte := 0xFF

/-- A full map: the result is the number 0. -/
theorem allocInode_full :
    ¬ ∀ (sb : SuperBlock) (dev : Int) (s : Fs), s.superOf dev = some sb →
      bit (inodeMap (s.disk dev)) 0 = true →
      AllocSpec sb dev s (allocInodeMapBit dev s) := by
  intro hall
  have hset : ∀ y, bit (inodeMap fullMap) y = true := by
    intro y
    have hones : ∀ k < 8, (0xFF : Byte).getLsbD k = true := by decide
    exact hones _ (Nat.mod_lt _ (by decide))
  obtain ⟨s, hs⟩ : ∃ s, s = demoFs fullMap (demoRoot 80) := ⟨_, rfl⟩
  have hsb : s.superOf ROOT_DEV_NR = some (superBlock 40960 ROOT_DEV_NR) := by
    rw [hs]
    rfl
  have hmap : inodeMap (s.disk ROOT_DEV_NR) = inodeMap fullMap := by rw [hs]; rfl
  have hspec := hall _ ROOT_DEV_NR s hsb (hmap ▸ hset 0)
  rcases allocInode_cases hsb (by decide) with ⟨-, g, hrun⟩ |
    ⟨b, f', g, hfirst, -⟩
  · rw [hrun] at hspec
    obtain ⟨b, -, -, hne, -⟩ := hspec
    exact hne rfl
  · rw [hmap] at hfirst
    exact absurd (hfirst.2.2.1.symm.trans (hset b)) (by decide)

end KosInodeMap
