import Kos.InitFsProofs
import Kos.SectorMapProofs

/-! # Evaluating an allocation

    `alloc_sect_map_bit` marks the bits of the buffer one by one, and `mkfs` fills
    its bytes one by one.  A run is evaluated with versions that do it at once.

    * a byte of the buffer is then one step from the disk, not as many as there
      were bits marked before it;
    * they are the functions of the source (`allocSectMapBitFast_eq`,
      `fillBytes_eq`). -/

namespace KosEvaluation

open FlatMemory (Byte)
open BitMap (bit Clear Marks eq_of_bit_eq)
open Overlay KosFs KosInitFs KosSectorMap

/-! ## Filling -/

/-- Bytes that are filled one by one. -/
theorem fillBytes_eq (n : Nat) : ((List.range n).forM fun i =>
    setBuf fun b => Function.update b i 0xFF) =
      setBuf fun b => put b 0 n fun _ => 0xFF := by
  induction n with
  | zero =>
      funext s
      show _ = EStateM.Result.ok () { s with fsbuf := put s.fsbuf 0 0 _ }
      rw [put_zero]
      rfl
  | succ n ih =>
      have happend : (List.range n ++ [n]).forM
          (fun i => setBuf fun b => Function.update b i 0xFF) =
          ((List.range n).forM (fun i => setBuf fun b => Function.update b i 0xFF) >>=
            fun _ => [n].forM fun i => setBuf fun b => Function.update b i 0xFF) :=
        List.forM_append
      rw [List.range_succ, happend, ih]
      funext s
      have hbuf : Function.update (put s.fsbuf 0 n fun _ => 0xFF) n 0xFF =
          put s.fsbuf 0 (n + 1) fun _ => 0xFF := ?_
      · show EStateM.Result.ok () { s with fsbuf := Function.update _ n 0xFF } = _
        rw [hbuf]
        rfl
      funext y
      by_cases hy : y = n
      · rw [hy, Function.update_self, put_of_in (by omega)]
      · rw [Function.update_of_ne hy]
        by_cases hlt : y < n
        · rw [put_of_in (by omega), put_of_in (by omega)]
        · rw [put_of_out (by omega), put_of_out (by omega)]

/-! ## Marking -/

/-- `f` with the `n` bits from `x` on set. -/
def markRange (f : Nat → Byte) (x n : Nat) : Nat → Byte := fun j =>
  f j ||| (BitVec.ofBoolListLE ((List.range 8).map fun k =>
    decide (x ≤ 8 * j + k ∧ 8 * j + k < x + n))).setWidth 8

variable {f : Nat → Byte} {x n i j left : Nat} {s : Fs}

theorem marks_markRange (f : Nat → Byte) (x n : Nat) : Marks f (markRange f x n) x n := by
  intro y
  have hk : y % 8 < 8 := Nat.mod_lt _ (by decide)
  have hy : 8 * (y / 8) + y % 8 = y := Nat.div_add_mod y 8
  have hmask : ((List.range 8).map fun k => decide (x ≤ 8 * (y / 8) + k ∧
      8 * (y / 8) + k < x + n)).getD (y % 8) false = decide (x ≤ y ∧ y < x + n) := by
    rw [List.getD_eq_getElem?_getD, List.getElem?_map, List.getElem?_range hk]
    simp only [Option.map_some, Option.getD_some, hy]
  rw [bit, markRange, BitVec.getLsbD_or, BitVec.getLsbD_setWidth, BitVec.getLsbD_ofBoolListLE,
    hmask, decide_eq_true hk, Bool.true_and, bit]

/-- The bytes with the `n` bits from byte `j` on are zero. -/
def ClearBytes (f : Nat → Byte) (j n : Nat) : Prop := ∀ k < (n + 7) / 8, f (j + k) = 0

instance (f : Nat → Byte) (j n : Nat) : Decidable (ClearBytes f j n) :=
  inferInstanceAs (Decidable (∀ k < _, _))

theorem clear_of_bytes (h : ClearBytes f j n) : Clear f (8 * j) n := by
  intro y h₁ h₂
  have hbyte := h (y / 8 - j) (by omega)
  rw [show j + (y / 8 - j) = y / 8 by omega] at hbyte
  rw [bit, hbyte]
  exact BitVec.getLsbD_zero

/-- The bits of zero bytes are marked at once. -/
theorem allocBytes_at_once {sb : SuperBlock} {alloc : Int} (ha : alloc ≠ 0)
    (h : ClearBytes s.fsbuf j (min n (8 * left))) :
    allocBytes sb i left j alloc n s = .ok (alloc, n - min n (8 * left))
      { s with fsbuf := markRange s.fsbuf (8 * j) (min n (8 * left)) } := by
  have hmarked : Marked s (8 * j) (min n (8 * left)) (alloc, n - min n (8 * left))
      (allocBytes sb i left j alloc n s) := allocBytes_marked ha
  rcases hmarked with ⟨-, g, hg, hrun⟩ | ⟨hnot, -⟩
  · have heq : g = markRange s.fsbuf (8 * j) (min n (8 * left)) :=
      eq_of_bit_eq fun y => by rw [hg y, marks_markRange _ _ _ y]
    rw [hrun, heq]
  · exact absurd (clear_of_bytes h) hnot

/-- `allocBytes`, where zero bytes are marked at once. -/
def allocBytesFast (sb : SuperBlock) (i : Nat) : Nat → Nat → Int → Nat → FsM (Int × Nat)
  | 0, _, alloc, n => pure (alloc, n)
  | left + 1, j, alloc, n => fun s =>
      if alloc ≠ 0 ∧ ClearBytes s.fsbuf j (min n (8 * (left + 1))) then
        .ok (alloc, n - min n (8 * (left + 1)))
          { s with fsbuf := markRange s.fsbuf (8 * j) (min n (8 * (left + 1))) }
      else if 0 < n then
        (do
          let r ← allocByte sb i j alloc n
          allocBytesFast sb i left (j + 1) r.1 r.2 : FsM (Int × Nat)) s
      else .ok (alloc, n) s

theorem allocBytesFast_eq (sb : SuperBlock) (i : Nat) :
    allocBytesFast sb i = allocBytes sb i := by
  funext left
  induction left with
  | zero => rfl
  | succ left ih =>
      funext j alloc n s
      have hround : allocBytesFast sb i (left + 1) j alloc n s =
          if alloc ≠ 0 ∧ ClearBytes s.fsbuf j (min n (8 * (left + 1))) then
            .ok (alloc, n - min n (8 * (left + 1)))
              { s with fsbuf := markRange s.fsbuf (8 * j) (min n (8 * (left + 1))) }
          else if 0 < n then (allocByte sb i j alloc n >>= fun r =>
            allocBytesFast sb i left (j + 1) r.1 r.2) s
          else .ok (alloc, n) s := rfl
      rw [hround, ih]
      by_cases h : alloc ≠ 0 ∧ ClearBytes s.fsbuf j (min n (8 * (left + 1)))
      · rw [if_pos h, allocBytes_at_once h.1 h.2]
      · rw [if_neg h, allocBytes]
        by_cases hn : 0 < n
        · rw [if_pos hn, if_pos hn]
        · rw [if_neg hn, if_neg hn]
          rfl

/-- `alloc_sect_map_bit`, evaluated so. -/
def allocSectsFast (sb : SuperBlock) (dev : Int) : Nat → Nat → Int → Nat → FsM (Int × Nat)
  | 0, _, alloc, n => pure (alloc, n)
  | left + 1, i, alloc, n => do
      rdSects dev (mapStart sb + i) 1
      let r ← allocBytesFast sb i 512 0 alloc n
      writeBack dev (mapStart sb + i) r.1
      if r.2 = 0 then pure r else allocSectsFast sb dev left (i + 1) r.1 r.2

theorem allocSectsFast_eq (sb : SuperBlock) (dev : Int) :
    allocSectsFast sb dev = allocSects sb dev := by
  funext left
  induction left with
  | zero => rfl
  | succ left ih =>
      funext i alloc n
      rw [allocSectsFast, allocSects, ih, allocBytesFast_eq]

/-- `alloc_sect_map_bit` with that loop. -/
def allocSectMapBitFast (dev : Int) (n : Nat) : FsM Int := do
  let sb ← getSuperBlock dev
  let r ← allocSectsFast sb dev sb.nrSectMapSects.toNat 0 0 n
  check (r.2 = 0)
  pure r.1

theorem allocSectMapBitFast_eq : allocSectMapBitFast = allocSectMapBit := by
  funext dev n
  rw [allocSectMapBitFast, allocSectMapBit]
  simp only [allocSectsFast_eq]

end KosEvaluation
