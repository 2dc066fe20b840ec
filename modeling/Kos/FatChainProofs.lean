import Kos.OverlayProofs
import Kos.FlatMemoryProofs

/-! # The chain of clusters

    `FAT12GetNextSector` of `boot/fdboot.asm` and of `boot/fdloader.asm`,
    against the packed table of twelve-bit entries.

    * A read at a sector number is a read at its cylinder, head and sector
      (`readFDSector_eq`);
    * the two copies differ in the divisor: one takes `BPB_BytsPerSec`, the
      other the word at the address 512, which is code (`getNext_eq`);
    * both return the entry exactly if the division by that word leaves the
      entry in the buffer, at its place (`fat_entry_iff`). -/

namespace KosFatChain

open FlatMemory (Byte)
open Overlay

/-! ## Registers -/

/-- `div`: quotient and remainder of a double register, or none where the
    processor raises the divide error. -/
def divide {k : Nat} (x : BitVec (k + k)) (y : BitVec k) :
    Option (BitVec k × BitVec k) :=
  let q := x / y.setWidth (k + k)
  let r := x % y.setWidth (k + k)
  -- the quotient has to fit
  if y = 0 ∨ (q.setWidth k).setWidth (k + k) ≠ q then none
  else some (q.setWidth k, r.setWidth k)

/-- A word in memory, the low byte first. -/
def half (b : Nat → Byte) (o : Nat) : BitVec 16 := b (o + 1) ++ b o

theorem divide_eq {k m d : Nat} {x : BitVec (k + k)} {y : BitVec k}
    (hm : x.toNat = m) (hd : y.toNat = d) (hpos : 0 < d)
    (hfit : (BitVec.ofNat k (m / d)).toNat = m / d) :
    divide x y = some (BitVec.ofNat k (m / d), BitVec.ofNat k (m % d)) := by
  have hwidth : (y.setWidth (k + k)).toNat = d := by
    rw [BitVec.toNat_setWidth_of_le (Nat.le_add_left k k), hd]
  have hq : (x / y.setWidth (k + k)).toNat = m / d := by
    rw [BitVec.toNat_udiv, hm, hwidth]
  have hr : (x % y.setWidth (k + k)).toNat = m % d := by
    rw [BitVec.toNat_umod, hm, hwidth]
  have hback : ((x / y.setWidth (k + k)).setWidth k).setWidth (k + k) =
      x / y.setWidth (k + k) := by
    rw [← BitVec.toNat_inj, BitVec.toNat_setWidth_of_le (Nat.le_add_left k k),
      ← BitVec.ofNat_toNat, hq, hfit]
  have hne : y ≠ 0 := by
    intro h
    rw [h, show BitVec.toNat (0 : BitVec k) = 0 from BitVec.toNat_zero] at hd
    omega
  rw [← hq, ← hr, BitVec.ofNat_toNat, BitVec.ofNat_toNat, divide]
  simp only [hback, hne, ne_eq, not_true_eq_false, or_self, if_false]

/-! ## The drive -/

/-- The reads of `int 13h` that end without an error at some try, by cylinder,
    head, first sector and number of sectors: those on one track do. -/
structure Bios where
  reads : Nat → Nat → Nat → Nat → Bool
  track : ∀ ch dh cl al, ch < 80 → dh < 2 → 1 ≤ cl → cl + al ≤ 19 →
    reads ch dh cl al = true

/-- `BPB_SecPerTrk`, and `SecPerTrk` of `fdloader.asm`. -/
def SEC_PER_TRK : Nat := 18

/-- `ReadFDSector`: `cl` sectors from the sector `ax` on at `es:bx`, or none
    where it tries for ever. -/
def readFDSector (bios : Bios) (image es : Nat → Byte) (ax : BitVec 16)
    (cl : Nat) (bx : Nat) : Option (Nat → Byte) :=
  match divide (k := 8) ax (BitVec.ofNat 8 SEC_PER_TRK) with
  | none => none
  | some (al, ah) =>
      let sector := (ah + 1).toNat
      let cylinder := (al >>> 1).toNat
      let head := (al &&& 1).toNat
      -- `.read_loop`
      if bios.reads cylinder head sector cl then
        some (put es bx (512 * cl) (drop image
          (512 * ((2 * cylinder + head) * SEC_PER_TRK + (sector - 1)))))
      else none

/-- `ReadFDSector` in terms of the sector number. -/
theorem readFDSector_eq {bios : Bios} {image es : Nat → Byte} {m cl bx : Nat}
    (hm : m < 4608) :
    readFDSector bios image es (BitVec.ofNat 16 m) cl bx =
      if bios.reads (m / 36) (m / 18 % 2) (m % 18 + 1) cl then
        some (put es bx (512 * cl) (drop image (512 * m)))
      else none := by
  have htrk : (BitVec.ofNat 8 SEC_PER_TRK).toNat = 18 := rfl
  have hax : (BitVec.ofNat 16 m).toNat = m := by
    rw [BitVec.toNat_ofNat]
    omega
  have hal : (BitVec.ofNat 8 (m / 18)).toNat = m / 18 := by
    rw [BitVec.toNat_ofNat]
    omega
  have hsector : (BitVec.ofNat 8 (m % 18) + 1).toNat = m % 18 + 1 := by
    rw [BitVec.toNat_add, BitVec.toNat_ofNat,
      show BitVec.toNat (1 : BitVec 8) = 1 from rfl]
    omega
  have hcylinder : (BitVec.ofNat 8 (m / 18) >>> 1).toNat = m / 36 := by
    rw [BitVec.toNat_ushiftRight, hal, Nat.shiftRight_eq_div_pow]
    omega
  have hhead : (BitVec.ofNat 8 (m / 18) &&& 1).toNat = m / 18 % 2 := by
    rw [BitVec.toNat_and, hal]
    exact Nat.and_one_is_mod _
  have hlba : (2 * (m / 36) + m / 18 % 2) * 18 + (m % 18 + 1 - 1) = m := by
    omega
  rw [readFDSector, divide_eq (k := 8) hax htrk (by omega) hal]
  simp only [hsector, hcylinder, hhead]
  rw [SEC_PER_TRK, hlba]

/-! ## The next cluster -/

/-- The first sector of the table. -/
def FAT1SectorNo : Nat := 1

/-- The number of sectors of the table. -/
def FAT1Sectors : Nat := 9

/-- `FAT12GetNextSector`, with its divisor for the bytes of a sector: the entry
    of the cluster `ax`, or none. `es` is the segment of the buffer. -/
def fat12GetNextSector (bytsPerSec : BitVec 16) (bios : Bios)
    (image es : Nat → Byte) (ax : BitVec 16) : Option (BitVec 16) := do
  -- `mul bx`, `div bx`
  let (ax, dx) ← divide (ax.setWidth 32 * 3) (2 : BitVec 16)
  let bOdd := dx ≠ 0
  -- `even_num`
  let (ax, dx) ← divide (ax.setWidth 32) bytsPerSec
  let bx := 0
  let es ← readFDSector bios image es (ax + BitVec.ofNat 16 FAT1SectorNo) 2 bx
  let bx := bx + dx.toNat
  let ax := half es bx
  let ax := if bOdd then ax >>> 4 else ax
  -- `even_num_2`
  pure (ax &&& 0x0FFF)

/-- `BPB_BytsPerSec  dw 512` -/
def BPB_BytsPerSec : BitVec 16 := 512

/-- `BytesPerSec  equ 512` -/
def BytesPerSec : Nat := 512

/-- The copy of `fdboot.asm`. -/
def fdbootNextSector : Bios → (Nat → Byte) → (Nat → Byte) → BitVec 16 →
    Option (BitVec 16) :=
  fat12GetNextSector BPB_BytsPerSec

/-- The copy of `fdloader.asm`: `mov bx, [BytesPerSec]` loads a word of the
    segment `ds`. -/
def fdloaderNextSector (ds : Nat → Byte) : Bios → (Nat → Byte) →
    (Nat → Byte) → BitVec 16 → Option (BitVec 16) :=
  fat12GetNextSector (half ds BytesPerSec)

/-- The twelve bits of a word that belong to the cluster `n`. -/
def twelve (n : Nat) (w : BitVec 16) : BitVec 16 :=
  (if n % 2 = 1 then w >>> 4 else w) &&& 0x0FFF

/-- The entry of the cluster `n` in a table. -/
def fatEntry (fat : Nat → Byte) (n : Nat) : BitVec 16 :=
  twelve n (half fat (3 * n / 2))

/-- The table on the disk. -/
def fat1 (image : Nat → Byte) : Nat → Byte := drop image (512 * FAT1SectorNo)

/-- The two bytes of the entry are in the table. -/
def InFat1 (n : Nat) : Prop := 3 * n / 2 + 2 ≤ 512 * FAT1Sectors

section Next

variable {bios : Bios} {image es ds : Nat → Byte} {w : BitVec 16} {n o : Nat}

/-- **THE ROUTINE** in terms of the byte offset of the entry. -/
theorem getNext_eq (hn : InFat1 n) (ho : o = 3 * n / 2) (hw : 0 < w.toNat) :
    fat12GetNextSector w bios image es (BitVec.ofNat 16 n) =
      let m := FAT1SectorNo + o / w.toNat
      if bios.reads (m / 36) (m / 18 % 2) (m % 18 + 1) 2 then
        some (twelve n (half (put es 0 1024 (drop image (512 * m)))
          (o % w.toNat)))
      else none := by
  have hfat : 512 * FAT1Sectors = 4608 := rfl
  have hno : FAT1SectorNo = 1 := rfl
  have hn' : 3 * n / 2 + 2 ≤ 4608 := hn
  have hle : o / w.toNat ≤ o := Nat.div_le_self o w.toNat
  have hmodle : o % w.toNat ≤ o := Nat.mod_le o w.toNat
  have hfit : ∀ a, a < 9216 → (BitVec.ofNat 16 a).toNat = a := by
    intro a ha
    rw [BitVec.toNat_ofNat]
    omega
  have hmul : ((BitVec.ofNat 16 n).setWidth 32 * 3).toNat = 3 * n := by
    rw [BitVec.toNat_mul, BitVec.toNat_setWidth, hfit n (by omega),
      show BitVec.toNat (3 : BitVec 32) = 3 from rfl]
    omega
  have hoff : ((BitVec.ofNat 16 o).setWidth 32).toNat = o := by
    rw [BitVec.toNat_setWidth, hfit o (by omega)]
    omega
  have hodd : BitVec.ofNat 16 (3 * n % 2) ≠ 0 ↔ n % 2 = 1 := by
    rw [Ne, ← BitVec.toNat_inj, hfit _ (by omega),
      show BitVec.toNat (0 : BitVec 16) = 0 from rfl]
    omega
  have hsector : BitVec.ofNat 16 (o / w.toNat) + BitVec.ofNat 16 FAT1SectorNo =
      BitVec.ofNat 16 (FAT1SectorNo + o / w.toNat) := by
    rw [← BitVec.ofNat_add, Nat.add_comm]
  have htwo : BitVec.toNat (2 : BitVec 16) = 2 := rfl
  rw [fat12GetNextSector, divide_eq (k := 16) hmul htwo (by omega)
    (hfit _ (by omega)),
    ← ho]
  simp only [Option.bind_eq_bind, Option.bind_some]
  rw [divide_eq (k := 16) hoff rfl hw (hfit _ (by omega))]
  simp only [Option.bind_some, hsector, hodd, hfit (o % w.toNat) (by omega),
    Nat.zero_add]
  rw [readFDSector_eq (by omega)]
  split
  · rfl
  · rfl

/-- The two bytes come from their place in the table. -/
def InPlace (w o : Nat) : Prop :=
  0 < w ∧ 512 * (o / w) + o % w = o ∧ o % w + 2 ≤ 1024

/-- **IN PLACE** the entry is returned. -/
theorem getNext_right (hn : InFat1 n)
    (hin : InPlace w.toNat (3 * n / 2)) :
    fat12GetNextSector w bios image es (BitVec.ofNat 16 n) =
      some (fatEntry (fat1 image) n) := by
  obtain ⟨o, ho⟩ : ∃ o, o = 3 * n / 2 := ⟨_, rfl⟩
  rw [← ho] at hin
  have hno : FAT1SectorNo = 1 := rfl
  have ho' : o + 2 ≤ 4608 := by
    rw [ho]
    exact hn
  obtain ⟨hw, hplace, hend⟩ := hin
  have hread : bios.reads ((FAT1SectorNo + o / w.toNat) / 36)
      ((FAT1SectorNo + o / w.toNat) / 18 % 2)
      ((FAT1SectorNo + o / w.toNat) % 18 + 1) 2 = true :=
    bios.track _ _ _ _ (by omega) (by omega) (by omega) (by omega)
  have hbyte : ∀ k < 2, put es 0 1024 (drop image
      (512 * (FAT1SectorNo + o / w.toNat))) (o % w.toNat + k) =
        fat1 image (o + k) := by
    intro k hk
    rw [put_of_in (by omega), drop, fat1, drop]
    exact congrArg image (by omega)
  rw [getNext_eq hn ho hw]
  simp only [hread, if_true]
  rw [fatEntry, ← ho, half, half, hbyte 1 (by omega),
    show put es 0 1024 _ (o % w.toNat) = fat1 image o from hbyte 0 (by omega)]

/-- **OUT OF PLACE** a table with one byte set, the second of the entry, is
    misread. -/
theorem getNext_wrong (hn : InFat1 n) (hout : ¬ InPlace w.toNat (3 * n / 2)) :
    ∃ image : Nat → Byte, fat12GetNextSector w bios image (fun _ => 0)
      (BitVec.ofNat 16 n) ≠ some (fatEntry (fat1 image) n) := by
  obtain ⟨o, ho⟩ : ∃ o, o = 3 * n / 2 := ⟨_, rfl⟩
  rw [← ho] at hout
  obtain ⟨image, himage⟩ : ∃ image : Nat → Byte,
      image = fun y => if y = 512 + o + 1 then 0xFF else 0 := ⟨_, rfl⟩
  refine ⟨image, ?_⟩
  have hno : FAT1SectorNo = 1 := rfl
  have hentry : half (fat1 image) o = 0xFF00 := by
    rw [half, fat1, drop, drop, himage]
    simp [hno, Nat.add_assoc]
  rcases Nat.eq_zero_or_pos w.toNat with h0 | hw
  · obtain rfl : w = 0 := BitVec.eq_of_toNat_eq h0
    intro h
    rw [fat12GetNextSector] at h
    obtain ⟨⟨ax, dx⟩, -, h⟩ := Option.bind_eq_some_iff.mp h
    obtain ⟨p, hp, -⟩ := Option.bind_eq_some_iff.mp h
    rw [divide] at hp
    simp at hp
  · rw [getNext_eq hn ho hw]
    simp only []
    split
    · -- the second byte is never the one that is set
      have hsecond : put (fun _ => 0) 0 1024 (drop image
          (512 * (FAT1SectorNo + o / w.toNat))) (o % w.toNat + 1) =
            (0 : Byte) := by
        by_cases hend : o % w.toNat + 2 ≤ 1024
        · rw [put_of_in (by omega), drop, himage]
          refine if_neg fun h => hout ⟨hw, ?_, hend⟩
          omega
        · exact put_of_out (by omega)
      have hfirst : ∀ b : Byte, (b = 0 ∨ b = 0xFF) →
          twelve n ((0 : Byte) ++ b) ≠ twelve n 0xFF00 := by
        intro b hb
        rw [twelve, twelve]
        rcases Nat.mod_two_eq_zero_or_one n with h | h
        · rw [h]
          rcases hb with rfl | rfl <;> decide
        · rw [h]
          rcases hb with rfl | rfl <;> decide
      intro h
      rw [fatEntry, ← ho, hentry, half, hsecond] at h
      refine hfirst _ ?_ (Option.some.inj h)
      rw [put]
      split
      · rw [drop, himage]
        exact (ite_eq_or_eq _ _ _).symm
      · exact Or.inl rfl
    · intro h
      cases h

/-- Where a division by `w` leaves a byte offset in place. -/
theorem inPlace_iff {w o : Nat} :
    InPlace w o ↔ w = 512 ∨ o < w ∧ o + 2 ≤ 1024 := by
  have hdiv := Nat.div_add_mod o w
  constructor
  · rintro ⟨hw, hplace, hend⟩
    rcases Nat.eq_zero_or_pos (o / w) with h0 | hpos
    · have ho := Nat.lt_of_div_eq_zero hw h0
      rw [Nat.mod_eq_of_lt ho] at hend
      exact Or.inr ⟨ho, hend⟩
    · refine Or.inl (Nat.eq_of_mul_eq_mul_right hpos ?_)
      omega
  · rintro (rfl | ⟨ho, hend⟩)
    · exact ⟨by omega, hdiv, by omega⟩
    · refine ⟨by omega, ?_, ?_⟩
      · rw [Nat.div_eq_of_lt ho, Nat.mod_eq_of_lt ho, Nat.mul_zero,
          Nat.zero_add]
      · rwa [Nat.mod_eq_of_lt ho]

end Next

/-! ## The entry that the loaders return -/

/-- Both copies return the entry of the cluster `n`, whatever the table and
    the buffer hold. -/
def FatAgrees (bios : Bios) (ds : Nat → Byte) (n : Nat) : Prop :=
  ∀ image es : Nat → Byte,
    fdbootNextSector bios image es (BitVec.ofNat 16 n) =
        some (fatEntry (fat1 image) n) ∧
      fdloaderNextSector ds bios image es (BitVec.ofNat 16 n) =
        some (fatEntry (fat1 image) n)

section Loaders

variable {bios : Bios} {image es ds : Nat → Byte} {n : Nat}

theorem fdboot_entry (hn : InFat1 n) :
    fdbootNextSector bios image es (BitVec.ofNat 16 n) =
      some (fatEntry (fat1 image) n) :=
  getNext_right hn (inPlace_iff.mpr (Or.inl rfl))

/-- **THE CHAIN** is followed by both copies where the word at the address 512
    is the number 512, or divides the entry neither into a later sector nor
    past the buffer. -/
theorem fat_entry_iff (hn : InFat1 n) :
    FatAgrees bios ds n ↔
      (half ds BytesPerSec).toNat = 512 ∨
        3 * n / 2 < (half ds BytesPerSec).toNat ∧ 3 * n / 2 + 2 ≤ 1024 := by
  rw [← inPlace_iff]
  constructor
  · intro h
    by_contra hout
    obtain ⟨image, hne⟩ := @getNext_wrong bios _ _ hn hout
    exact hne (h image fun _ => 0).2
  · intro hin image es
    exact ⟨fdboot_entry hn, getNext_right hn hin⟩

end Loaders

/-- The routines read a track at a time. -/
def demoBios : Bios where
  reads ch dh cl al := decide (ch < 80 ∧ dh < 2 ∧ 1 ≤ cl ∧ cl + al ≤ 19)
  track _ _ _ _ h₁ h₂ h₃ h₄ := decide_eq_true ⟨h₁, h₂, h₃, h₄⟩

/-- The code of `load_kernel` at the address 512: the distance of `jmp .2`, and
    `push ax`. -/
def demoDs (y : Nat) : Byte :=
  if y = 512 then 0x09 else if y = 513 then 0x50 else 0

theorem fat_entry_iff_2 : FatAgrees demoBios demoDs 2 :=
  (fat_entry_iff (show 3 * 2 / 2 + 2 ≤ 512 * FAT1Sectors by decide)).mpr
    (Or.inr (by decide))

/-- The loader loses the entry that straddles the second sector and the
    third. -/
theorem straddling_lost : ¬ ∀ (bios : Bios) (ds : Nat → Byte) (n : Nat),
    InFat1 n → FatAgrees bios ds n := by
  intro hall
  have hn : InFat1 682 := show 3 * 682 / 2 + 2 ≤ 512 * FAT1Sectors by decide
  have h := (hall demoBios demoDs 682 hn (fun y => if y = 1536 then 0xFF else 0)
    fun _ => 0).2
  exact absurd h (by decide +kernel)

end KosFatChain
