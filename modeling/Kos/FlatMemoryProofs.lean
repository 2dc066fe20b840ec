import Mathlib.Tactic.Common

/-! # Flat byte memory

    A 32-bit address space of bytes.  Addresses wrap around, so a block of `n`
    bytes at `a` is the set of addresses whose distance from `a` is below `n`.

    * words are little-endian (`readU32_writeU32`);
    * `copy` and `fill` change one block and nothing else
      (`readBlock_copy`, `copy_out`, `readBlock_of_agree`), and the loop of
      `memcpy` copies so if its blocks do not overlap (`copyLoop_eq_copy`);
    * `store` does the same with bytes from elsewhere (`readBlock_store`);
    * `Apart` says that two blocks share no byte. -/

namespace FlatMemory

/-- Addresses and words. -/
abbrev Addr := BitVec 32

/-- Eight bits. -/
abbrev Byte := BitVec 8

/-- The bytes of all addresses. -/
abbrev Mem := Addr → Byte

/-! ## Blocks -/

/-- The address `x` lies in the block of `n` bytes at `a`. -/
def InBlock (a : Addr) (n : Nat) (x : Addr) : Prop := (x - a).toNat < n

instance (a : Addr) (n : Nat) (x : Addr) : Decidable (InBlock a n x) :=
  inferInstanceAs (Decidable (_ < _))

/-- A block, address by address. -/
theorem inBlock_offset {a x : Addr} {n : Nat} (hn : n ≤ 4294967296) :
    InBlock a n x ↔ ∃ i < n, x = a + BitVec.ofNat 32 i := by
  constructor
  · intro h
    refine ⟨(x - a).toNat, h, ?_⟩
    rw [BitVec.ofNat_toNat, BitVec.setWidth_eq, BitVec.add_comm,
      BitVec.sub_add_cancel]
  · rintro ⟨i, hi, rfl⟩
    rw [InBlock, BitVec.add_comm, BitVec.add_sub_cancel, BitVec.toNat_ofNat,
      Nat.mod_eq_of_lt (by omega)]
    exact hi

/-- Two blocks of `n` bytes share no address. -/
def Apart (n : Nat) (a b : Addr) : Prop :=
  ∀ x, InBlock a n x → ¬ InBlock b n x

/-- Lying apart is symmetric. -/
theorem apart_symm {n : Nat} {a b : Addr} (h : Apart n a b) : Apart n b a :=
  fun x hb ha => h x ha hb

/-- A byte of one block is outside the other if one ends before the other
    starts. -/
theorem not_inBlock_of_le {a b : Addr} {n i : Nat} (hi : i < n)
    (ha : a.toNat + n ≤ 4294967296) (hb : b.toNat + n ≤ 4294967296)
    (h : a.toNat + n ≤ b.toNat ∨ b.toNat + n ≤ a.toNat) :
    ¬ InBlock b n (a + BitVec.ofNat 32 i) := by
  rw [InBlock, BitVec.toNat_sub, BitVec.toNat_add, BitVec.toNat_ofNat]
  omega

/-- The bytes of a block. -/
def readBlock (mem : Mem) (a : Addr) (i : Nat) : Byte :=
  mem (a + BitVec.ofNat 32 i)

/-- Memories that agree on a block read the same from it. -/
theorem readBlock_of_agree {mem mem' : Mem} {a : Addr} {n i : Nat}
    (hn : n ≤ 4294967296) (h : ∀ x, InBlock a n x → mem' x = mem x) (hi : i < n) :
    readBlock mem' a i = readBlock mem a i :=
  h _ ((inBlock_offset hn).mpr ⟨i, hi, rfl⟩)

/-- `memcpy` of a block that does not overlap its source. -/
def copy (mem : Mem) (dst src : Addr) (n : Nat) : Mem := fun x =>
  if InBlock dst n x then mem (src + (x - dst)) else mem x

/-- `memset`. -/
def fill (mem : Mem) (dst : Addr) (v : Byte) (n : Nat) : Mem := fun x =>
  if InBlock dst n x then v else mem x

/-- A copy leaves the memory outside its destination. -/
theorem copy_out {mem : Mem} {dst src x : Addr} {n : Nat}
    (h : ¬ InBlock dst n x) : copy mem dst src n x = mem x := by
  rw [copy, if_neg h]

/-- A fill leaves the memory outside its block. -/
theorem fill_out {mem : Mem} {dst x : Addr} {v : Byte} {n : Nat}
    (h : ¬ InBlock dst n x) : fill mem dst v n x = mem x := by
  rw [fill, if_neg h]

/-- The copy reads like the source did. -/
theorem readBlock_copy {mem : Mem} {dst src : Addr} {n i : Nat}
    (hn : n ≤ 4294967296) (hi : i < n) :
    readBlock (copy mem dst src n) dst i = readBlock mem src i := by
  have hin : InBlock dst n (dst + BitVec.ofNat 32 i) :=
    (inBlock_offset hn).mpr ⟨i, hi, rfl⟩
  rw [readBlock, copy, if_pos hin, BitVec.add_comm dst,
    BitVec.add_sub_cancel, readBlock]

/-! ## The loop of `memcpy` -/

/-- Memory after `n` rounds of a loop that copies byte by byte, upwards. -/
def copyLoop (mem : Mem) (dst src : Addr) : Nat → Mem
  | 0 => mem
  | n + 1 =>
      let m := copyLoop mem dst src n
      fun x => if x = dst + BitVec.ofNat 32 n then m (src + BitVec.ofNat 32 n)
        else m x

/-- A block of one byte more. -/
theorem inBlock_succ {a x : Addr} {n : Nat} (hn : n < 4294967296) :
    InBlock a (n + 1) x ↔ InBlock a n x ∨ x = a + BitVec.ofNat 32 n := by
  rw [inBlock_offset (by omega), inBlock_offset (by omega)]
  constructor
  · rintro ⟨i, hi, rfl⟩
    rcases Nat.lt_succ_iff_lt_or_eq.mp hi with hlt | rfl
    · exact Or.inl ⟨i, hlt, rfl⟩
    · exact Or.inr rfl
  · rintro (⟨i, hi, rfl⟩ | rfl)
    · exact ⟨i, by omega, rfl⟩
    · exact ⟨n, by omega, rfl⟩

/-- Offsets below `2 ^ 32` give different addresses. -/
theorem offset_inj {a : Addr} {i j : Nat} (hi : i < 4294967296)
    (hj : j < 4294967296)
    (h : a + BitVec.ofNat 32 i = a + BitVec.ofNat 32 j) : i = j := by
  have heq := congrArg BitVec.toNat ((BitVec.add_right_inj a).mp h)
  simp only [BitVec.toNat_ofNat] at heq
  rwa [Nat.mod_eq_of_lt (by omega), Nat.mod_eq_of_lt (by omega)] at heq

/-- Each byte of the destination is written in its own round. -/
theorem copyLoop_at (mem : Mem) (dst src : Addr) {i : Nat} :
    ∀ {n : Nat}, i < n → n ≤ 4294967296 →
      copyLoop mem dst src n (dst + BitVec.ofNat 32 i) =
        copyLoop mem dst src i (src + BitVec.ofNat 32 i) := by
  intro n
  induction n with
  | zero => intro hi; omega
  | succ n ih =>
      intro hi hn
      rw [copyLoop]
      dsimp only
      rcases Nat.lt_succ_iff_lt_or_eq.mp hi with hlt | rfl
      · rw [if_neg fun heq => ?_]
        · exact ih hlt (by omega)
        · have := offset_inj (by omega) (by omega) heq
          omega
      · rw [if_pos rfl]

/-- Without overlap the loop copies the block. -/
theorem copyLoop_eq_copy {mem : Mem} {dst src : Addr} {n : Nat}
    (hn : n ≤ 4294967296)
    (h : ∀ i < n, ¬ InBlock dst n (src + BitVec.ofNat 32 i)) :
    copyLoop mem dst src n = copy mem dst src n := by
  have hrounds : ∀ k, k ≤ n → copyLoop mem dst src k = copy mem dst src k := by
    intro k
    induction k with
    | zero =>
        intro _
        funext x
        rw [copy_out (by simp [InBlock])]
        rfl
    | succ k ih =>
        intro hk
        funext x
        rw [copyLoop, ih (by omega)]
        dsimp only
        by_cases hx : x = dst + BitVec.ofNat 32 k
        · have hread : ¬ InBlock dst k (src + BitVec.ofNat 32 k) := by
            intro hin
            refine h k (by omega) ?_
            rw [InBlock] at hin ⊢
            omega
          have hin : InBlock dst (k + 1) x :=
            (inBlock_succ (by omega)).mpr (Or.inr hx)
          rw [if_pos hx, copy_out hread, copy, if_pos hin, hx,
            BitVec.add_comm dst, BitVec.add_sub_cancel]
        · rw [if_neg hx, copy, copy]
          simp only [inBlock_succ (show k < 4294967296 by omega), hx, or_false]
  exact hrounds n (Nat.le_refl n)

/-- Blocks that overlap: the loop reads bytes that it has written before. -/
theorem copyLoop_overlap (mem : Mem) {dst src : Addr} {n : Nat}
    (hn : n ≤ 4294967296) (hne : dst ≠ src) (hd : (dst - src).toNat < n) :
    copyLoop mem dst src n (dst + (dst - src)) = mem src := by
  have hpos : 0 < (dst - src).toNat := by
    rw [BitVec.toNat_sub]
    have := BitVec.toNat_ne.mp hne
    omega
  have hoff : dst - src = BitVec.ofNat 32 (dst - src).toNat := by
    rw [BitVec.ofNat_toNat, BitVec.setWidth_eq]
  have hback : src + (dst - src) = dst := by
    rw [BitVec.add_comm, BitVec.sub_add_cancel]
  have hlate := copyLoop_at mem dst src hd hn
  have hearly := copyLoop_at mem dst src hpos (by omega)
  rw [← hoff, hback] at hlate
  rw [hlate]
  simpa [copyLoop] using hearly

/-- Addresses outside the block keep their bytes. -/
theorem copyLoop_out {mem : Mem} {dst src x : Addr} :
    ∀ {n : Nat}, n ≤ 4294967296 → ¬ InBlock dst n x →
      copyLoop mem dst src n x = mem x := by
  intro n
  induction n with
  | zero => exact fun _ _ => rfl
  | succ n ih =>
      intro hn h
      rw [inBlock_succ (by omega), not_or] at h
      rw [copyLoop]
      dsimp only
      rw [if_neg h.2]
      exact ih (by omega) h.1

/-! ## Bytes from elsewhere -/

/-- Memory with the `n` bytes at `dst` taken from `f`. -/
def store (mem : Mem) (dst : Addr) (n : Nat) (f : Nat → Byte) : Mem := fun x =>
  if InBlock dst n x then f (x - dst).toNat else mem x

/-- A store leaves the memory outside its block. -/
theorem store_out {mem : Mem} {dst x : Addr} {n : Nat} {f : Nat → Byte}
    (h : ¬ InBlock dst n x) : store mem dst n f x = mem x := by
  rw [store, if_neg h]

/-- What was stored is read back. -/
theorem readBlock_store {mem : Mem} {dst : Addr} {n i : Nat} {f : Nat → Byte}
    (hn : n ≤ 4294967296) (hi : i < n) :
    readBlock (store mem dst n f) dst i = f i := by
  have hin : InBlock dst n (dst + BitVec.ofNat 32 i) :=
    (inBlock_offset hn).mpr ⟨i, hi, rfl⟩
  rw [readBlock, store, if_pos hin, BitVec.add_comm dst,
    BitVec.add_sub_cancel, BitVec.toNat_ofNat, Nat.mod_eq_of_lt (by omega)]

/-! ## Words -/

/-- The little-endian word at `a`. -/
def readU32 (mem : Mem) (a : Addr) : BitVec 32 :=
  readBlock mem a 3 ++ readBlock mem a 2 ++ readBlock mem a 1 ++
    readBlock mem a 0

/-- Store a word at `a`. -/
def writeU32 (mem : Mem) (a : Addr) (v : BitVec 32) : Mem := fun x =>
  if InBlock a 4 x then v.extractLsb' (8 * (x - a).toNat) 8 else mem x

/-- A word written leaves the memory around it. -/
theorem writeU32_out {mem : Mem} {a x : Addr} {v : BitVec 32}
    (h : ¬ InBlock a 4 x) : writeU32 mem a v x = mem x := by
  rw [writeU32, if_neg h]

/-- The bytes of a word that was written. -/
theorem readBlock_writeU32 {mem : Mem} {a : Addr} {v : BitVec 32} {i : Nat}
    (hi : i < 4) :
    readBlock (writeU32 mem a v) a i = v.extractLsb' (8 * i) 8 := by
  have hin : InBlock a 4 (a + BitVec.ofNat 32 i) :=
    (inBlock_offset (by decide)).mpr ⟨i, hi, rfl⟩
  rw [readBlock, writeU32, if_pos hin, BitVec.add_comm a,
    BitVec.add_sub_cancel, BitVec.toNat_ofNat, Nat.mod_eq_of_lt (by omega)]

/-- The four bytes of a word, put together. -/
theorem append_bytes (v : BitVec 32) :
    v.extractLsb' 24 8 ++ v.extractLsb' 16 8 ++ v.extractLsb' 8 8 ++
      v.extractLsb' 0 8 = v := by
  apply BitVec.eq_of_getLsbD_eq
  intro i hi
  simp only [BitVec.getLsbD_append, BitVec.getLsbD_extractLsb']
  rcases Nat.lt_or_ge i 8 with h0 | h0
  · simp [h0]
  · rcases Nat.lt_or_ge i 16 with h1 | h1
    · have e1 : i - 8 < 8 := by omega
      have e2 : 8 + (i - 8) = i := by omega
      simp [Nat.not_lt.mpr h0, e1, e2]
    · rcases Nat.lt_or_ge i 24 with h2 | h2
      · have e1 : ¬ i - 8 < 8 := by omega
        have e2 : i - 8 - 8 < 8 := by omega
        have e3 : 16 + (i - 8 - 8) = i := by omega
        simp [Nat.not_lt.mpr h0, e1, e2, e3]
      · have e1 : ¬ i - 8 < 8 := by omega
        have e2 : ¬ i - 8 - 8 < 8 := by omega
        have e3 : i - 8 - 8 - 8 < 8 := by omega
        have e4 : 24 + (i - 8 - 8 - 8) = i := by omega
        simp [Nat.not_lt.mpr h0, e1, e2, e3, e4]

/-- A word is read back. -/
theorem readU32_writeU32 (mem : Mem) (a : Addr) (v : BitVec 32) :
    readU32 (writeU32 mem a v) a = v := by
  simp only [readU32, readBlock_writeU32 (show 3 < 4 by decide),
    readBlock_writeU32 (show 2 < 4 by decide),
    readBlock_writeU32 (show 1 < 4 by decide),
    readBlock_writeU32 (show 0 < 4 by decide)]
  exact append_bytes v

/-- A word is a function of its four bytes. -/
theorem readU32_congr {mem mem' : Mem} {a b : Addr}
    (h : ∀ i < 4, readBlock mem' b i = readBlock mem a i) :
    readU32 mem' b = readU32 mem a := by
  simp only [readU32, h 3 (by decide), h 2 (by decide), h 1 (by decide),
    h 0 (by decide)]

end FlatMemory
