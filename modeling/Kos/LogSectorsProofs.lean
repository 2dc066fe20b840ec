import Kos.DiskLogProofs
import Kos.MkfsImageProofs

/-! # The sectors of the disk log

    The first call of `disklog` (`task/fs/disklog.c`) sets 2048 bits in the
    sector map, so that no file gets the sectors of the log.  It takes the
    number of a sector for the number of its bit.

    * The bits have to be clear, and are set (`setLogSectSmap_marks`); nothing
      after that writes in front of the log (`disklog_below`);
    * so the last bit it sets is not the one of a log sector, on any partition
      (`disklog_last_bit`), and the map is never what it should be, neither the
      first time nor when the bits are set already (`log_never_reserved`). -/

namespace KosLogSectors

open FlatMemory (Byte)
open Overlay
open BitMap (bit Clear Marks marks_one marks_zero marks_trans clear_append
  marks_block)
open KosKernel (Halt assert assert_eq_ok bind_eq_ok)
open KosFs (SuperBlock Addressed ROOT_DEV_NR)
open KosMkfs
open KosSectorMap (mapStart mapByte mapOf mapSize bit_mapOf marks_mapOf)
open KosMkfsImage
open KosDiskLog

/-! ## Setting bits -/

section Bits

variable {s t : Log} {n byteOff bitOff left left' : Nat} {sectNr : Int}

/-- `m` bits from `x` on were clear and are set, and nothing else changed. -/
def Sets (f g : Nat → Byte) (x m : Nat) : Prop := Clear f x m ∧ Marks f g x m

/-- No bit set is the map unchanged. -/
theorem sets_zero (f : Nat → Byte) (x : Nat) : Sets f f x 0 :=
  ⟨fun _ h₁ h₂ => by omega, marks_zero f x⟩

/-- Bits that are set one behind the other. -/
theorem sets_trans {f g h : Nat → Byte} {x m k : Nat} (h₁ : Sets f g x m)
    (h₂ : Sets g h (x + m) k) : Sets f h x (m + k) :=
  ⟨clear_append.mpr ⟨h₁.1,
    (BitMap.clear_of_marks h₁.2 (Nat.le_refl _)).mp h₂.1⟩,
    marks_trans h₁.2 h₂.2⟩

/-- The bits that the loop over one byte sets. -/
theorem setBits_sets : ∀ {n bitOff left : Nat} {s : Log}, bitOff + n = 8 →
    0 < left → setBits byteOff n bitOff left s = .ok (left', t) →
    ∃ m, left' + m = left ∧ m ≤ n ∧ (left' = 0 ∨ m = n) ∧ t.disk = s.disk ∧
      Sets s.logdiskbuf t.logdiskbuf (8 * byteOff + bitOff) m := by
  intro n
  induction n with
  | zero =>
      intro bitOff left s _ _ h
      cases h
      exact ⟨0, rfl, Nat.le_refl 0, Or.inr rfl, rfl, sets_zero _ _⟩
  | succ n ih =>
      intro bitOff left s hn hleft h
      obtain ⟨_, hassert, h⟩ := bind_eq_ok.mp h
      have hclear := assert_eq_ok.mp hassert
      obtain ⟨g, hg⟩ : ∃ g, g = Function.update s.logdiskbuf byteOff
        (s.logdiskbuf byteOff ||| (1 : Byte) <<< bitOff) := ⟨_, rfl⟩
      have hone : Sets s.logdiskbuf g (8 * byteOff + bitOff) 1 := by
        refine ⟨fun y h₁ h₂ => ?_, ?_⟩
        · obtain rfl : y = 8 * byteOff + bitOff := by omega
          rw [BitMap.bit_byte (by omega)]
          exact hclear
        · rw [hg]
          exact marks_one (by omega)
      dsimp only [setBuf] at h
      rw [← hg] at h
      split at h
      · cases h
        exact ⟨1, by omega, by omega, Or.inl rfl, rfl, hone⟩
      · obtain ⟨m, hm, hle, hend, hdisk, hsets⟩ := ih (by omega) (by omega) h
        refine ⟨1 + m, by omega, by omega, by omega, hdisk,
          sets_trans hone ?_⟩
        rw [show 8 * byteOff + bitOff + 1 = 8 * byteOff + (bitOff + 1) by omega]
        exact hsets

/-- The bits that the loop over the bytes of one sector sets. -/
theorem setBytes_sets : ∀ {n byteOff bitOff left : Nat} {s : Log},
    bitOff < 8 → (n = 0 → bitOff = 0) →
    setBytes n byteOff bitOff left s = .ok (left', t) →
    ∃ m, left' + m = left ∧ bitOff + m ≤ 8 * n ∧
      (left' = 0 ∨ bitOff + m = 8 * n) ∧ t.disk = s.disk ∧
      Sets s.logdiskbuf t.logdiskbuf (8 * byteOff + bitOff) m := by
  intro n
  induction n with
  | zero =>
      intro byteOff bitOff left s _ hzero h
      cases h
      have hbit := hzero rfl
      exact ⟨0, rfl, by omega, Or.inr (by omega), rfl, sets_zero _ _⟩
  | succ n ih =>
      intro byteOff bitOff left s hbit _ h
      rw [setBytes] at h
      split at h
      · rename_i hleft
        obtain ⟨⟨left₁, s₁⟩, h₁, h⟩ := bind_eq_ok.mp h
        obtain ⟨m₁, hm₁, hle₁, hend₁, hdisk₁, hsets₁⟩ :=
          setBits_sets (by omega) hleft h₁
        obtain ⟨m₂, hm₂, hle₂, hend₂, hdisk₂, hsets₂⟩ :=
          ih (by omega) (fun _ => rfl) h
        refine ⟨m₁ + m₂, by omega, by omega, by omega, hdisk₂.trans hdisk₁, ?_⟩
        rcases hend₁ with hdone | hfull
        · -- the last bit was in this byte
          obtain rfl : m₂ = 0 := by omega
          obtain ⟨-, hmarks⟩ := hsets₂
          have hsame : t.logdiskbuf = s₁.logdiskbuf :=
            BitMap.eq_of_bit_eq fun y => by
              rw [hmarks, decide_eq_false (by omega), Bool.or_false]
          rw [Nat.add_zero, hsame]
          exact hsets₁
        · refine sets_trans hsets₁ ?_
          rw [show 8 * byteOff + bitOff + m₁ = 8 * (byteOff + 1) + 0 by omega]
          exact hsets₂
      · cases h
        exact ⟨0, rfl, by omega, Or.inl (by omega), rfl, sets_zero _ _⟩

/-- A `RD_SECT` that returned read an addressed sector. -/
theorem rdSect_ok (h : rdSect sectNr s = .ok t) : Addressed sectNr ∧
    t.disk = s.disk ∧
    t.logdiskbuf = put s.logdiskbuf 0 512 (drop s.disk (512 * sectNr.toNat)) := by
  rw [rdSect] at h
  split at h
  · rename_i haddr
    cases h
    exact ⟨haddr, rfl, rfl⟩
  · cases h

/-- A `WR_SECT` that returned wrote addressed sectors. -/
theorem wrSects_ok {count : Nat} (h : wrSects sectNr count s = .ok t) :
    Addressed sectNr ∧ t.disk =
      put s.disk (512 * sectNr.toNat) (512 * count) s.logdiskbuf := by
  rw [wrSects] at h
  split at h
  · rename_i haddr
    cases h
    exact ⟨haddr, rfl⟩
  · cases h

/-- **THE LOOP** over the sectors of the map sets bits of the disk. -/
theorem setSects_sets : ∀ {n byteOff bitOff left a : Nat} {s : Log},
    byteOff < 512 → bitOff < 8 →
    setSects n (a : Nat) byteOff bitOff left s = .ok (left', t) →
    ∃ m, left' + m = left ∧
      (n = 0 ∨ left' = 0 ∨ 8 * byteOff + bitOff + m = 4096 * n) ∧
      Sets s.disk t.disk (8 * (512 * a) + (8 * byteOff + bitOff)) m := by
  intro n
  induction n with
  | zero =>
      intro byteOff bitOff left a s _ _ h
      cases h
      exact ⟨0, rfl, Or.inl rfl, sets_zero _ _⟩
  | succ n ih =>
      intro byteOff bitOff left a s hbyte hbit h
      obtain ⟨s₁, hrd, h⟩ := bind_eq_ok.mp h
      obtain ⟨⟨left₂, s₂⟩, hbytes, h⟩ := bind_eq_ok.mp h
      obtain ⟨s₃, hwr, h⟩ := bind_eq_ok.mp h
      obtain ⟨-, hdisk₁, hbuf₁⟩ := rdSect_ok hrd
      obtain ⟨-, hdisk₃⟩ := wrSects_ok hwr
      obtain ⟨m₁, hm₁, hle₁, hend₁, hdisk₂, hclear, hmarks⟩ :=
        setBytes_sets hbit (by omega) hbytes
      -- the buffer holds the sector, so its clear bits are the map's
      have hread : ∀ y < 8 * 512, bit s₁.logdiskbuf y =
          bit s.disk (8 * (512 * a) + y) := by
        intro y hy
        rw [hbuf₁, BitMap.bit_put_of_in (by omega), Nat.mul_zero, Nat.sub_zero,
          BitMap.bit_drop, Int.toNat_natCast]
      have hsets₁ : Sets s.disk s₃.disk
          (8 * (512 * a) + (8 * byteOff + bitOff)) m₁ := by
        constructor
        · intro y h₁ h₂
          have hy := hclear (y - 8 * (512 * a)) (by omega) (by omega)
          rw [hread _ (by omega), Nat.add_sub_of_le (by omega)] at hy
          exact hy
        · rw [hdisk₃, hdisk₂, hdisk₁, Int.toNat_natCast]
          exact marks_block hread hmarks (by omega)
      -- the count is used up in this sector, or the sector is full and the
      -- next one starts at its first bit
      split at h
      · rename_i hzero
        cases h
        exact ⟨m₁, hm₁, Or.inr (Or.inl hzero), hsets₁⟩
      · have hfull : bitOff + m₁ = 8 * (512 - byteOff) := by omega
        rw [show ((a : Nat) : Int) + 1 = ((a + 1 : Nat) : Int) by omega] at h
        obtain ⟨m₂, hm₂, hend₂, hsets₂⟩ := ih (by omega) (by omega) h
        refine ⟨m₁ + m₂, by omega, ?_, sets_trans hsets₁ ?_⟩
        · rcases hend₂ with rfl | hdone | hnext
          · exact Or.inr (Or.inr (by cases h; omega))
          · exact Or.inr (Or.inl hdone)
          · exact Or.inr (Or.inr (by omega))
        · rw [show 8 * (512 * a) + (8 * byteOff + bitOff) + m₁ =
            8 * (512 * (a + 1)) + (8 * 0 + 0) by omega]
          exact hsets₂

end Bits

/-! ## The first call -/

section First

variable {sb : SuperBlock} {s t : Log} {n : Nat} {sectCnt : BitVec 32}

/-- The loop starts at the place of bit `n`, and sets all bits. -/
theorem setLogSectSmap_eq_ok (hm : Made sb) (hn : nrLogBlk0 sb = (n : Nat)) :
    setLogSectSmap sb s = .ok t ↔
      setSects 2 ((3 + n / 4096 : Nat) : Int) (n % 4096 / 8) (n % 4096 % 8) 2048
        s = .ok (0, t) := by
  have hmod : ((n : Nat) : Int).tmod 4096 = ((n % 4096 : Nat) : Int) :=
    (Int.ofNat_tmod n 4096).symm
  have hdiv : mapStart sb + ((n : Nat) : Int).tdiv 4096 =
      ((3 + n / 4096 : Nat) : Int) := by
    rw [mapStart_made hm, show ((n : Nat) : Int).tdiv 4096 = _ from
      (Int.ofNat_tdiv n 4096).symm]
    omega
  rw [setLogSectSmap, hn, hmod, hdiv, if_neg (by omega), Int.toNat_natCast]
  constructor
  · intro h
    obtain ⟨⟨left, s₁⟩, hsects, h⟩ := bind_eq_ok.mp h
    obtain ⟨_, hassert, h⟩ := bind_eq_ok.mp h
    obtain rfl : left = 0 := assert_eq_ok.mp hassert
    cases h
    exact hsects
  · intro hsects
    show setSects 2 _ _ _ _ s >>= _ = _
    rw [hsects, ok_bind]
    rfl

/-- **THE BITS** that the first call sets have the numbers of the log sectors. -/
theorem setLogSectSmap_sets (hm : Made sb) (hn : nrLogBlk0 sb = (n : Nat))
    (h : setLogSectSmap sb s = .ok t) :
    Sets s.disk t.disk (8 * mapByte sb + n) 2048 := by
  have hsects := (setLogSectSmap_eq_ok hm hn).mp h
  obtain ⟨m, hsum, -, hsets⟩ := setSects_sets (by omega) (by omega) hsects
  obtain rfl : m = 2048 := by omega
  rw [mapByte_made hm, show 8 * 1536 + n =
    8 * (512 * (3 + n / 4096)) + (8 * (n % 4096 / 8) + n % 4096 % 8) by omega]
  exact hsets

/-- Nothing in front of sector `n` is written. -/
def Below (n : Nat) (s t : Log) : Prop := ∀ x < 512 * n, t.disk x = s.disk x

/-- A write of later sectors leaves those below `n`. -/
theorem below_wrSects {m : Int} {count : Nat} (hm : (n : Int) ≤ m)
    (h : KosDiskLog.wrSects m count s = .ok t) : Below n s t := by
  obtain ⟨-, hdisk⟩ := wrSects_ok h
  intro x hx
  rw [hdisk, put_of_out (by omega)]

/-- The cleaning of the log leaves the sectors below it. -/
theorem below_memset : ∀ {rounds : Nat} {i : Int} {s : Log}, (n : Int) ≤ i →
    memsetLogSects rounds i s = .ok t → Below n s t := by
  intro rounds
  induction rounds with
  | zero =>
      intro i s _ h
      cases h
      exact fun _ _ => rfl
  | succ rounds ih =>
      intro i s hi h
      obtain ⟨s₁, hwr, h⟩ := bind_eq_ok.mp h
      have h₁ : Below n s s₁ := fun x hx => below_wrSects hi hwr x hx
      have h₂ : Below n s₁ t := ih (by omega) h
      exact fun x hx => (h₂ x hx).trans (h₁ x hx)

/-- The text of an entry leaves the sectors below the log. -/
theorem below_writeString : ∀ {fuel : Nat} {sect : Int} {p : List Byte}
    {s : Log}, (n : Int) ≤ sect → writeString fuel sect p s = .ok t →
    Below n s t := by
  intro fuel
  induction fuel with
  | zero =>
      intro sect p s _ h
      cases h
      exact fun _ _ => rfl
  | succ fuel ih =>
      intro sect p s hsect h
      rw [writeString] at h
      split at h
      · cases h
        exact fun _ _ => rfl
      · obtain ⟨s₁, hrd, h⟩ := bind_eq_ok.mp h
        obtain ⟨s₂, hwr, h⟩ := bind_eq_ok.mp h
        obtain ⟨-, hdisk₁, -⟩ := rdSect_ok hrd
        have h₂ : Below n s₁ s₂ := fun x hx => below_wrSects hsect hwr x hx
        have h₃ : Below n s₂ t := fun x hx => ih (by omega) h x hx
        exact fun x hx => (h₃ x hx).trans ((h₂ x hx).trans (by rw [hdisk₁]))

/-- The header leaves the sectors below the log. -/
theorem below_writeHeader {c : Cmos} (hn : nrLogBlk0 sb = (n : Nat))
    (h : writeHeader sb c s = .ok t) : Below n s t := by
  obtain ⟨s₁, hrd, h⟩ := bind_eq_ok.mp h
  obtain ⟨s₂, hwr, hlast⟩ := bind_eq_ok.mp h
  obtain ⟨-, hdisk₁, -⟩ := rdSect_ok hrd
  have h₂ : Below n s₁ s₂ := fun x hx => below_wrSects (by omega) hwr x hx
  have h₃ : Below n s₂ t := fun x hx => below_wrSects (by omega) hlast x hx
  exact fun x hx => (h₃ x hx).trans ((h₂ x hx).trans (by rw [hdisk₁]))

/-- **THE FIRST CALL**: the bits are set, and after that nothing in front of the
    log is written. -/
theorem disklog_first_sets {p : List Byte} {c : Cmos} (hm : Made sb)
    (hpos : s.pos = 0) (h : disklog sb p c s = .ok t) :
    ∃ n : Nat, nrLogBlk0 sb = (n : Nat) ∧ ∃ u : Log,
      Sets s.disk u.disk (8 * mapByte sb + n) 2048 ∧ Below n u t := by
  rw [disklog, if_pos hpos] at h
  obtain ⟨s₁, hinit, h⟩ := bind_eq_ok.mp h
  obtain ⟨s₂, hstring, hheader⟩ := bind_eq_ok.mp h
  obtain ⟨u, hsmap, hmemset⟩ := bind_eq_ok.mp hinit
  -- the sectors are written, so their numbers are not negative
  obtain ⟨n, hn⟩ : ∃ n : Nat, nrLogBlk0 sb = (n : Nat) := by
    obtain ⟨_, hwr, -⟩ := bind_eq_ok.mp hmemset
    obtain ⟨⟨hlo, -⟩, -⟩ := wrSects_ok hwr
    exact ⟨(nrLogBlk0 sb).toNat, by omega⟩
  have h₁ : Below n u s₁ := below_memset (s := { u with pos := 0x40 })
    (by omega) hmemset
  have h₂ : Below n s₁ s₂ := below_writeString (by omega) hstring
  have h₃ : Below n s₂ t := below_writeHeader hn hheader
  refine ⟨n, hn, u, setLogSectSmap_sets hm hn hsmap, fun x hx => ?_⟩
  rw [h₃ x hx, h₂ x hx, h₁ x hx]

end First

/-! ## The first call returns -/

section Returns

variable {sb : SuperBlock} {s : Log} {n a byteOff bitOff left : Nat}

/-- The loop over one byte meets no assert where the bits are clear. -/
theorem setBits_run (byteOff : Nat) : ∀ {n bitOff left : Nat} {s : Log}, bitOff + n = 8 →
    0 < left → Clear s.logdiskbuf (8 * byteOff + bitOff) (min left n) →
    ∃ r, setBits byteOff n bitOff left s = .ok r := by
  intro n
  induction n with
  | zero => exact fun _ _ _ => ⟨_, rfl⟩
  | succ n ih =>
      intro bitOff left s hn hleft hclear
      have hbit : (s.logdiskbuf byteOff).getLsbD bitOff = false := by
        rw [← BitMap.bit_byte (by omega)]
        exact hclear _ (by omega) (by omega)
      rw [setBits, show assert _ = .ok () from assert_eq_ok.mpr hbit, ok_bind]
      dsimp only
      split
      · exact ⟨_, rfl⟩
      · refine ih (by omega) (by omega) fun y h₁ h₂ => ?_
        have hone := marks_one (f := s.logdiskbuf) (j := byteOff)
          (show bitOff < 8 by omega) y
        rw [setBuf]
        dsimp only
        rw [hone, hclear y (by omega) (by omega), decide_eq_false (by omega),
          Bool.or_false]

/-- Nor does the loop over the bytes of one sector. -/
theorem setBytes_run : ∀ (n byteOff : Nat) {bitOff : Nat} (left : Nat) {s : Log},
    bitOff < 8 →
    Clear s.logdiskbuf (8 * byteOff + bitOff) (min left (8 * n - bitOff)) →
    ∃ r, setBytes n byteOff bitOff left s = .ok r := by
  intro n
  induction n with
  | zero => exact fun _ {_} _ {_} _ _ => ⟨_, rfl⟩
  | succ n ih =>
      intro byteOff bitOff left s hbit hclear
      rw [setBytes]
      split
      · rename_i hleft
        obtain ⟨⟨left₁, s₁⟩, h₁⟩ := setBits_run byteOff
          (n := 8 - bitOff) (s := s) (by omega) hleft
          (BitMap.clear_mono hclear (Nat.le_refl _) (by omega))
        obtain ⟨m, hm, hle, hend, -, -, hmarks⟩ :=
          setBits_sets (by omega) hleft h₁
        rw [h₁, ok_bind]
        refine ih _ _ (by omega) fun y hlo hhi => ?_
        rw [hmarks, hclear y (by omega) (by omega), decide_eq_false (by omega),
          Bool.or_false]
      · exact ⟨_, rfl⟩

/-- Nor does the loop over the sectors of the map. -/
theorem setSects_run : ∀ {n a byteOff bitOff left : Nat} {s : Log},
    byteOff < 512 → bitOff < 8 → 512 * (a + n) ≤ 2147483648 →
    Clear s.disk (8 * (512 * a) + (8 * byteOff + bitOff)) left →
    ∃ r, setSects n (a : Nat) byteOff bitOff left s = .ok r := by
  intro n
  induction n with
  | zero => exact fun _ _ _ _ => ⟨_, rfl⟩
  | succ n ih =>
      intro a byteOff bitOff left s hbyte hbit haddr hclear
      obtain ⟨b, hb⟩ : ∃ b, b = put s.logdiskbuf 0 512 (drop s.disk (512 * a)) :=
        ⟨_, rfl⟩
      have hread : ∀ y < 8 * 512, bit b y = bit s.disk (8 * (512 * a) + y) := by
        intro y hy
        rw [hb, BitMap.bit_put_of_in (by omega), Nat.mul_zero, Nat.sub_zero,
          BitMap.bit_drop]
      obtain ⟨s₁, hs₁⟩ : ∃ s₁ : Log, s₁ = { s with logdiskbuf := b } := ⟨_, rfl⟩
      have hbuf₁ : s₁.logdiskbuf = b := by rw [hs₁]
      have hdisk₁ : s₁.disk = s.disk := by rw [hs₁]
      have hrd : rdSect (a : Nat) s = .ok s₁ := by
        rw [rdSect_of (by omega), ← hb, hs₁]
      -- only the bits that are in this sector have to be clear in the buffer
      obtain ⟨⟨left₂, s₂⟩, hbytes⟩ := setBytes_run (512 - byteOff)
        byteOff left (s := s₁) hbit fun y hlo hhi => by
          rw [hbuf₁, hread y (by omega)]
          exact hclear _ (by omega) (by omega)
      obtain ⟨m, hm, hle, hend, hdisk₂, -, hmarks⟩ :=
        setBytes_sets hbit (by omega) hbytes
      obtain ⟨s₃, hs₃⟩ : ∃ s₃ : Log, s₃ = { s₂ with
        disk := put s₂.disk (512 * a) (512 * 1) s₂.logdiskbuf
        writes := s₂.writes ++ List.range' a 1 } := ⟨_, rfl⟩
      have hwr : KosDiskLog.wrSects (a : Nat) 1 s₂ = .ok s₃ := by
        rw [wrSects_of (by omega), hs₃]
      rw [setSects, hrd, ok_bind, hbytes, ok_bind]
      dsimp only
      rw [hwr, ok_bind]
      split
      · exact ⟨_, rfl⟩
      · rw [show ((a : Nat) : Int) + 1 = ((a + 1 : Nat) : Int) by omega]
        refine ih (by omega) (by omega) (by omega) fun y hlo hhi => ?_
        rw [hs₃]
        dsimp only
        rw [BitMap.bit_put_of_out (by omega), hdisk₂, hdisk₁]
        exact hclear y (by omega) (by omega)

/-- The cleaning of the log runs through on an addressed log. -/
theorem memsetLogSects_run : ∀ (rounds n : Nat) {s : Log},
    512 * (n + 256 * rounds) ≤ 2147483648 →
    ∃ t, memsetLogSects rounds (n : Nat) s = .ok t ∧ t.pos = s.pos := by
  intro rounds
  induction rounds with
  | zero => exact fun _ {s} _ => ⟨s, rfl, rfl⟩
  | succ rounds ih =>
      intro n s haddr
      rw [memsetLogSects, wrSects_of (by omega), ok_bind,
        show ((n : Nat) : Int) + 256 = ((n + 256 : Nat) : Int) by omega]
      obtain ⟨t, hrun, hpos⟩ := ih (n + 256) (by omega)
      exact ⟨t, hrun, hpos⟩

/-- **THE INITIALISATION** returns where the bits with the numbers of the log
    sectors are clear. -/
theorem initLog_run (hm : Made sb) (hr : Region sb)
    (hclear : Clear s.disk (8 * mapByte sb + (sb.nrSects.toNat - 2048)) 2048) :
    ∃ t, initLog sb s = .ok t ∧ t.pos = 0x40 := by
  obtain ⟨n, hn⟩ : ∃ n, n = sb.nrSects.toNat - 2048 := ⟨_, rfl⟩
  have hlow := hr.log
  have hhigh := hr.addressed
  have hsmap := hm.smap
  have hblk : nrLogBlk0 sb = (n : Nat) := by rw [hn, nrLogBlk0_eq hr]
  rw [← hn, mapByte_made hm, show 8 * 1536 + n =
    8 * (512 * (3 + n / 4096)) + (8 * (n % 4096 / 8) + n % 4096 % 8) by omega]
    at hclear
  obtain ⟨⟨left, s₁⟩, hsects⟩ := setSects_run (n := 2) (s := s)
    (by omega) (by omega) (by omega) hclear
  obtain ⟨m, hsum, hend, -⟩ := setSects_sets (by omega) (by omega) hsects
  obtain rfl : left = 0 := by omega
  have hsmapRun := (setLogSectSmap_eq_ok hm hblk).mpr hsects
  obtain ⟨t, hmemset, hpos⟩ := memsetLogSects_run 8 n
    (s := { s₁ with pos := 0x40 }) (by omega)
  refine ⟨t, ?_, hpos⟩
  rw [initLog, hsmapRun, ok_bind, hblk, hmemset]

/-- So does a first call with a string that has room. -/
theorem disklog_first_run {p : List Byte} {c : Cmos} (hm : Made sb)
    (hr : Region sb) (hpos : s.pos = 0) (hroom : 0x40 + p.length ≤ 2047 * 512)
    (hclear : Clear s.disk (8 * mapByte sb + (sb.nrSects.toNat - 2048)) 2048) :
    ∃ t, disklog sb p c s = .ok t := by
  obtain ⟨s₁, hinit, hpos₁⟩ := initLog_run hm hr hclear
  obtain ⟨t, hrun, -⟩ := disklog_run (p := p) (c := c) (s := s₁) hr (by omega)
    (by omega)
  exact ⟨t, (disklog_first hpos hinit (by omega)).trans hrun⟩

end Returns

/-! ## The map -/

/-- The bits of the log sectors are set in the map, and no others. -/
def Reserves (sb : SuperBlock) (f g : Nat → Byte) : Prop :=
  ∀ y < mapSize sb, bit (mapOf sb g) y = true ↔ bit (mapOf sb f) y = true ∨
    ∃ sector, LogSector sb sector ∧ y = bitOf sb sector

/-- The map is as it was. -/
def SameMap (sb : SuperBlock) (f g : Nat → Byte) : Prop :=
  ∀ y < mapSize sb, bit (mapOf sb g) y = bit (mapOf sb f) y

section Reserving

variable {sectCnt : BitVec 32} {s t : Log} {p : List Byte} {c : Cmos}

/-- The bit with the number of the last sector was clear, and is set; it is not
    the bit of a log sector. -/
theorem disklog_last_bit (haccept : Accepts sectCnt) (hpos : s.pos = 0)
    (h : disklog (superBlock sectCnt ROOT_DEV_NR) p c s = .ok t) :
    sectCnt.toNat - 1 < mapSize (superBlock sectCnt ROOT_DEV_NR) ∧
      bit (mapOf (superBlock sectCnt ROOT_DEV_NR) s.disk)
        (sectCnt.toNat - 1) = false ∧
      bit (mapOf (superBlock sectCnt ROOT_DEV_NR) t.disk)
        (sectCnt.toNat - 1) = true ∧
      ∀ sector, LogSector (superBlock sectCnt ROOT_DEV_NR) sector →
        sectCnt.toNat - 1 ≠ bitOf (superBlock sectCnt ROOT_DEV_NR) sector := by
  have hm := superBlock_made sectCnt ROOT_DEV_NR
  obtain ⟨hsects, hsmap, hdata⟩ := superBlock_nat sectCnt
  obtain ⟨n, hn, u, ⟨hclear, hmarks⟩, hbelow⟩ := disklog_first_sets hm hpos h
  have hlarge := accepts_iff.mp haccept
  have hlt := sectCnt.isLt
  -- the size is not one that the subtraction makes large
  have hnat : n + 2048 = sectCnt.toNat := by
    have hint : (sectCnt - KosInitFs.NR_SECTS_FOR_LOG).toInt = (n : Nat) := hn
    have hlog : KosInitFs.NR_SECTS_FOR_LOG.toNat = 2048 := by decide
    rw [BitVec.toInt_eq_toNat_cond, BitVec.toNat_sub, hlog] at hint
    split at hint <;> omega
  have hmap := mapByte_made hm
  refine ⟨?_, ?_, ?_, fun sector hsector heq => ?_⟩
  · rw [mapSize, hsmap]
    omega
  · rw [bit_mapOf]
    exact hclear _ (by omega) (by omega)
  · rw [bit_mapOf, bit, hbelow _ (by omega), ← bit, hmarks,
      decide_eq_true (by omega), Bool.or_true]
  · rw [LogSector, hsects] at hsector
    rw [bitOf, hdata] at heq
    omega

/-- The bits of the log sectors are not what a call sets. -/
theorem not_reserves (haccept : Accepts sectCnt) (hpos : s.pos = 0)
    (h : disklog (superBlock sectCnt ROOT_DEV_NR) p c s = .ok t) :
    ¬ Reserves (superBlock sectCnt ROOT_DEV_NR) s.disk t.disk := by
  intro hreserves
  obtain ⟨hy, hbefore, hafter, hother⟩ := disklog_last_bit haccept hpos h
  rcases (hreserves _ hy).mp hafter with hset | ⟨sector, hsector, heq⟩
  · rw [hbefore] at hset
    cases hset
  · exact hother sector hsector heq

/-- **THE LOG IS NEVER RESERVED**: whatever is in the map when the first call of
    `disklog` returns, it is not the bits of the log sectors, and where these
    were set before it is not the map that there was.  After the next boot no
    call returns. -/
theorem log_never_reserved (haccept : Accepts sectCnt) (hpos : s.pos = 0) :
    (¬ ∃ t, disklog (superBlock sectCnt ROOT_DEV_NR) p c s = .ok t ∧
      Reserves (superBlock sectCnt ROOT_DEV_NR) s.disk t.disk) ∧
    (¬ ∃ t, disklog (superBlock sectCnt ROOT_DEV_NR) p c s = .ok t ∧
      SameMap (superBlock sectCnt ROOT_DEV_NR) s.disk t.disk) ∧
    ∀ t, disklog (superBlock sectCnt ROOT_DEV_NR) p c s = .ok t →
      ∀ (u : Log) (p' : List Byte) (c' : Cmos), u.disk = t.disk → u.pos = 0 →
        ¬ ∃ v, disklog (superBlock sectCnt ROOT_DEV_NR) p' c' u = .ok v := by
  refine ⟨?_, ?_, ?_⟩
  · rintro ⟨t, h, hreserves⟩
    exact not_reserves haccept hpos h hreserves
  · rintro ⟨t, h, hsame⟩
    obtain ⟨hy, hbefore, hafter, -⟩ := disklog_last_bit haccept hpos h
    have heq := hsame _ hy
    rw [hbefore, hafter] at heq
    cases heq
  · rintro t h u p' c' hdisk hboot ⟨v, hv⟩
    obtain ⟨-, -, hafter, -⟩ := disklog_last_bit haccept hpos h
    obtain ⟨-, hbefore, -⟩ := disklog_last_bit haccept hboot hv
    rw [hdisk, hafter] at hbefore
    cases hbefore

end Reserving

/-- The disk of 40257 sectors before the first call. -/
def bootLog : Log := ⟨fun _ => 0, [], fun _ => 0, 0⟩

/-- A first entry on the root device that reserves nothing. -/
theorem log_never_reserved_boot :
    ∃ t, disklog demoSb [] demoCmos bootLog = .ok t ∧
      ¬ Reserves demoSb bootLog.disk t.disk := by
  obtain ⟨t, h⟩ := disklog_first_run (p := []) (c := demoCmos) (s := bootLog)
    (superBlock_made 0x9D41 ROOT_DEV_NR) demoRegion rfl (by decide)
    fun _ _ _ => BitVec.getLsbD_zero
  exact ⟨t, h, fun hreserves =>
    (@log_never_reserved 0x9D41 _ _ _ (by decide) rfl).1 ⟨t, h, hreserves⟩⟩

/-- The first entry of the log does not reserve its sectors. -/
theorem log_not_reserved :
    ¬ ∀ (sectCnt : BitVec 32) (s : Log) (p : List Byte) (c : Cmos),
      Accepts sectCnt → s.pos = 0 →
      ∃ t, disklog (superBlock sectCnt ROOT_DEV_NR) p c s = .ok t ∧
        Reserves (superBlock sectCnt ROOT_DEV_NR) s.disk t.disk := by
  intro hall
  obtain ⟨t, h, hreserves⟩ := hall 0x9D41 bootLog [] demoCmos (by decide) rfl
  exact not_reserves (by decide) rfl h hreserves

end KosLogSectors
