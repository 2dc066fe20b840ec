import Kos.DiskDriverProofs
import Mathlib.Data.List.Nodup

/-! # The tables of the logical partitions

    An extended partition holds a chain of records.  In a record the partition
    is relative to the record, and the next record is relative to the extended
    partition.  `read_logical_partitions` (`device/hd.c`) adds both to the same
    variable, so the third record is looked for at the sum of two relative
    starts.

    * the loop follows the sums (`logicalLoop_spec`), and its entries are the
      ones of its own extended partition (`placed_iff_sums`);
    * the first two sums are the first two records (`sums_zero`, `sums_one`);
    * a chain is placed as it says on every disk that holds it if and only if it
      has no third record (`logical_partitions_placed`). -/

namespace KosPartition

open FlatMemory (Byte)
open Overlay
open KosKernel (Halt)
open KosFs (word putWord word_congr word_putWord word_putWord_of_out word_drop)
open KosDisk

/-! ## Partition tables -/

/-- Where the table starts in its sector, and what `hd.h` says of it. -/
def PART_TABLE_OFFSET : Nat := 0x1BE
def NR_MAX_LOGI_PART_PER_EXT : Nat := 16
def NO_PART : Byte := 0
def EXT_PART : Byte := 5

/-- The fields of `part_entry` that the driver reads. -/
structure PartEntry where
  sysId : Byte
  startSect : BitVec 32
  nrSects : BitVec 32

/-- The entry with these bytes. -/
def partEntry (b : Nat → Byte) : PartEntry := ⟨b 4, word b 8, word b 12⟩

/-- Entry `i` of the table in a sector of the disk. -/
def sectorEntry (disk : Nat → Byte) (sector i : Nat) : PartEntry :=
  partEntry (drop disk (512 * sector + PART_TABLE_OFFSET + 16 * i))

/-- The command of `get_part_table`. -/
def partTableCmd (drive : Int) (sectNr : BitVec 32) : CmdBlock where
  features := 0
  count := 1
  lbaLow := (sectNr &&& 0xFF).setWidth 8
  lbaMid := (sectNr >>> 8 &&& 0xFF).setWidth 8
  lbaHigh := (sectNr >>> 16 &&& 0xFF).setWidth 8
  device := makeDeviceReg drive ((sectNr >>> 24 &&& 0xF).setWidth 8)
  command := ATA_READ

/-- `get_part_table`: the table in the sector that is programmed. -/
def getPartTable (disk : Nat → Byte) (drive : Int) (sectNr : BitVec 32)
    (i : Nat) : PartEntry :=
  sectorEntry disk (lbaOf (partTableCmd drive sectNr)) i

/-- `hdi->logical[i] = ..`. -/
def setLogical (hd : HdInfo) (i : Int) (part : PartInfo) : Except Halt HdInfo :=
  if h : 0 ≤ i ∧ i.toNat < NR_MAX_MINOR_LOGI_PER_DRIVE then
    .ok { hd with logical := Function.update hd.logical ⟨i.toNat, h.2⟩ part }
  else .error .fault

/-- The loop of `read_logical_partitions`: rounds left, `i`, and
    `ext_part_start_sect`. -/
def logicalLoop (disk : Nat → Byte) (drive first : Int) :
    Nat → Nat → BitVec 32 → HdInfo → Except Halt HdInfo
  | 0, _, _, hd => .ok hd
  | n + 1, i, ext, hd => do
      let tbl := getPartTable disk drive ext
      let hd ← setLogical hd (first + i)
        ⟨ext + (tbl 0).startSect, (tbl 0).nrSects⟩
      if (tbl 1).sysId = NO_PART then .ok hd
      else logicalLoop disk drive first n (i + 1) (ext + (tbl 1).startSect) hd

/-- `read_logical_partitions`. -/
def readLogicalPartitions (disk : Nat → Byte) (drive : Int) (hd : HdInfo)
    (nrDevMinor : Int) : Except Halt HdInfo := do
  let nrExtPart := nrDevMinor.tmod NR_MAX_MINOR_PRIM_PER_DRIVE
  let part ← element hd.primary nrExtPart
  logicalLoop disk drive ((nrExtPart - 1) * NR_MAX_LOGI_PART_PER_EXT)
    NR_MAX_LOGI_PART_PER_EXT 0 part.startSect hd

/-! ## Chains -/

/-- A record: where it is in the extended partition, where its partition is from
    the record on, and how large that is. -/
structure Record where
  loc : BitVec 32
  start : BitVec 32
  size : BitVec 32
  deriving DecidableEq, Repr

/-- The sector of a record. -/
def Record.sector (r : Record) (E : BitVec 32) : Nat := E.toNat + r.loc.toNat

/-- The true place of the partition. -/
def Record.place (r : Record) (E : BitVec 32) : PartInfo :=
  ⟨E + r.loc + r.start, r.size⟩

/-- Entry 0 gives the partition of the record. -/
def Gives (disk : Nat → Byte) (E : BitVec 32) (r : Record) : Prop :=
  (sectorEntry disk (r.sector E) 0).sysId ≠ NO_PART ∧
    (sectorEntry disk (r.sector E) 0).startSect = r.start ∧
    (sectorEntry disk (r.sector E) 0).nrSects = r.size

/-- The disk holds the chain: entry 1 gives the next record, and the last one
    has none. -/
def Holds (disk : Nat → Byte) (E : BitVec 32) : List Record → Prop
  | [] => True
  | [r] => Gives disk E r ∧ (sectorEntry disk (r.sector E) 1).sysId = NO_PART
  | r :: next :: rest =>
      Gives disk E r ∧ (sectorEntry disk (r.sector E) 1).sysId ≠ NO_PART ∧
        (sectorEntry disk (r.sector E) 1).startSect = next.loc ∧
        Holds disk E (next :: rest)

/-- A chain that an extended partition can hold: the first record is its first
    sector, no two records are in one sector, no two partitions start in one,
    none is empty, and 28 bits reach everything. -/
structure WellFormed (E : BitVec 32) (chain : List Record) : Prop where
  length_le : chain.length ≤ NR_MAX_LOGI_PART_PER_EXT
  head_loc : ∀ r, chain.head? = some r → r.loc = 0
  locs : (chain.map fun r => r.loc.toNat).Nodup
  starts : (chain.map fun r => r.loc.toNat + r.start.toNat).Nodup
  size_pos : ∀ r ∈ chain, 0 < r.size.toNat
  reach : ∀ r ∈ chain, r.sector E + r.start.toNat + r.size.toNat ≤ 268435456

/-- What is asked of `read_logical_partitions`, whichever of the four entries
    the extended partition has. -/
def Placed (disk : Nat → Byte) (E : BitVec 32) (chain : List Record) : Prop :=
  ∀ (hd : HdInfo) (n : Fin 4), (hd.primary n.succ).startSect = E →
    ∃ hd', readLogicalPartitions disk 0 hd (n.val + 1 : Nat) = .ok hd' ∧
      (∀ (j : Nat) (r : Record) (m : Fin 64), chain[j]? = some r →
        m.val = 16 * n.val + j → hd'.logical m = r.place E) ∧
      (∀ m : Fin 64, m.val < 16 * n.val ∨ 16 * n.val + 16 ≤ m.val →
        hd'.logical m = hd.logical m) ∧
      hd'.primary = hd.primary

/-! ## The loop -/

section Loop

variable {disk : Nat → Byte} {E : BitVec 32} {hd : HdInfo} {n i j : Nat}

/-- The sector of round `j`: the relative starts are all added up. -/
def sums (disk : Nat → Byte) (E : BitVec 32) : Nat → BitVec 32
  | 0 => E
  | j + 1 => sums disk E j + (getPartTable disk 0 (sums disk E j) 1).startSect

/-- The tables at the sums before the `j`-th go on. -/
def Reached (disk : Nat → Byte) (E : BitVec 32) (j : Nat) : Prop :=
  ∀ l < j, (getPartTable disk 0 (sums disk E l) 1).sysId ≠ NO_PART

/-- What round `j` stores. -/
def sumPlace (disk : Nat → Byte) (E : BitVec 32) (j : Nat) : PartInfo :=
  ⟨sums disk E j + (getPartTable disk 0 (sums disk E j) 0).startSect,
    (getPartTable disk 0 (sums disk E j) 0).nrSects⟩

/-- A table read from the disk is the table of its sector. -/
theorem getPartTable_eq (disk : Nat → Byte) (s : BitVec 32) (i : Nat) :
    getPartTable disk 0 s i = sectorEntry disk (s.toNat % 268435456) i := by
  have hlow := byte_toNat s 0
  have hmid := byte_toNat s 8
  have hhigh := byte_toNat s 16
  have hhighest := nibble_toNat s
  rw [BitVec.ushiftRight_zero, Nat.shiftRight_zero] at hlow
  rw [Nat.shiftRight_eq_div_pow] at hmid hhigh hhighest
  have hlba : lbaOf (partTableCmd 0 s) = s.toNat % 268435456 := by
    dsimp only [lbaOf, partTableCmd]
    rw [hlow, hmid, hhigh, hhighest]
    omega
  rw [getPartTable, hlba]

/-- An entry of `logical` is set. -/
theorem setLogical_eq {m : Fin 64} {x : Int} (hx : x = (m.val : Int))
    (part : PartInfo) : setLogical hd x part =
      .ok { hd with logical := Function.update hd.logical m part } := by
  subst hx
  exact dif_pos ⟨Int.natCast_nonneg _, m.isLt⟩

/-- **THE LOOP** from round `i` on stores what is at the sums, as far as it
    gets. -/
theorem logicalLoop_spec (disk : Nat → Byte) (E : BitVec 32) (first : Nat) :
    ∀ (n i : Nat) (hd : HdInfo),
    first + i + n ≤ 64 →
    ∃ hd', logicalLoop disk 0 (first : Nat) n i (sums disk E i) hd = .ok hd' ∧
      hd'.primary = hd.primary ∧
      (∀ m : Fin 64, m.val < first + i ∨ first + i + n ≤ m.val →
        hd'.logical m = hd.logical m) ∧
      ∀ (m : Fin 64) (j : Nat), m.val = first + j → i ≤ j → j < i + n →
        ((∀ l, i ≤ l → l < j →
          (getPartTable disk 0 (sums disk E l) 1).sysId ≠ NO_PART) →
          hd'.logical m = sumPlace disk E j) ∧
        ((∃ l, i ≤ l ∧ l < j ∧
          (getPartTable disk 0 (sums disk E l) 1).sysId = NO_PART) →
          hd'.logical m = hd.logical m) := by
  intro n
  induction n with
  | zero =>
      intro i hd _
      exact ⟨hd, rfl, rfl, fun _ _ => rfl, fun _ j _ hle hlt => by omega⟩
  | succ n ih =>
      intro i hd hroom
      obtain ⟨m₀, hm₀⟩ : ∃ m₀ : Fin 64, m₀.val = first + i :=
        ⟨⟨first + i, by omega⟩, rfl⟩
      obtain ⟨hd₁, hd₁eq⟩ : ∃ hd₁ : HdInfo, hd₁ = { hd with
        logical := Function.update hd.logical m₀ (sumPlace disk E i) } :=
        ⟨_, rfl⟩
      -- the round assigns the partition of its record
      have hset : setLogical hd ((first : Nat) + i : Int)
          (sumPlace disk E i) = .ok hd₁ := by
        rw [hd₁eq]
        exact setLogical_eq (by omega) _
      have hsame : hd₁.logical m₀ = sumPlace disk E i := by
        rw [hd₁eq]
        exact Function.update_self _ _ _
      have hother : ∀ m : Fin 64, m.val ≠ first + i →
          hd₁.logical m = hd.logical m := by
        intro m hm
        have hne : m ≠ m₀ := by
          rintro rfl
          exact hm hm₀
        rw [hd₁eq]
        exact Function.update_of_ne hne _ _
      have hprim : hd₁.primary = hd.primary := by rw [hd₁eq]
      have hstep : logicalLoop disk 0 (first : Nat) (n + 1) i (sums disk E i) hd =
          if (getPartTable disk 0 (sums disk E i) 1).sysId = NO_PART then .ok hd₁
          else logicalLoop disk 0 (first : Nat) n (i + 1) (sums disk E (i + 1))
            hd₁ := by
        rw [logicalLoop]
        exact congrArg (· >>= _) hset
      rw [hstep]
      by_cases hend : (getPartTable disk 0 (sums disk E i) 1).sysId = NO_PART
      · -- the break: the rounds that are left change nothing
        rw [if_pos hend]
        refine ⟨hd₁, rfl, hprim, fun m hm => hother m (by omega),
          fun m j hm hle hlt => ⟨fun hgo => ?_, ?_⟩⟩
        · rcases Nat.eq_or_lt_of_le hle with rfl | hlt'
          · rw [Fin.ext (hm.trans hm₀.symm), hsame]
          · exact absurd hend (hgo i (Nat.le_refl i) hlt')
        · rintro ⟨l, hil, hlj, -⟩
          exact hother m (by omega)
      · -- the loop goes on: entry `i` stays as it was assigned
        rw [if_neg hend]
        obtain ⟨hd', hrun, hprim', hout, hin⟩ :=
          ih (i + 1) hd₁ (by omega)
        refine ⟨hd', hrun, hprim'.trans hprim, fun m hm => ?_,
          fun m j hm hle hlt => ?_⟩
        · rw [hout m (by omega), hother m (by omega)]
        · rcases Nat.eq_or_lt_of_le hle with rfl | hlt'
          · refine ⟨fun _ => ?_, ?_⟩
            · rw [hout m (by omega), Fin.ext (hm.trans hm₀.symm), hsame]
            · rintro ⟨l, hil, hlj, -⟩
              omega
          · obtain ⟨hgoes, hstops⟩ := hin m j hm hlt' (by omega)
            refine ⟨fun hgo => hgoes fun l hil hlj => hgo l (by omega) hlj, ?_⟩
            rintro ⟨l, hil, hlj, hno⟩
            rw [← hother m (by omega)]
            refine hstops ⟨l, Nat.lt_of_le_of_ne hil ?_, hlj, hno⟩
            rintro rfl
            exact hend hno

/-- The run of `read_logical_partitions` over an extended partition. -/
theorem readLogicalPartitions_spec (disk : Nat → Byte) (hd : HdInfo) (n : Fin 4)
    (hE : (hd.primary n.succ).startSect = E) :
    ∃ hd', readLogicalPartitions disk 0 hd (n.val + 1 : Nat) = .ok hd' ∧
      hd'.primary = hd.primary ∧
      (∀ m : Fin 64, m.val < 16 * n.val ∨ 16 * n.val + 16 ≤ m.val →
        hd'.logical m = hd.logical m) ∧
      ∀ (m : Fin 64) (j : Nat), m.val = 16 * n.val + j → j < 16 →
        (Reached disk E j → hd'.logical m = sumPlace disk E j) ∧
        (¬ Reached disk E j → hd'.logical m = hd.logical m) := by
  obtain ⟨hd', hrun, hprim, hout, hin⟩ := logicalLoop_spec disk E
    (16 * n.val) 16 0 hd (by omega)
  refine ⟨hd', ?_, hprim, hout, fun m j hm hj => ?_⟩
  · have hmod : ((n.val + 1 : Nat) : Int).tmod NR_MAX_MINOR_PRIM_PER_DRIVE =
        (n.val + 1 : Nat) := by
      rw [show ((NR_MAX_MINOR_PRIM_PER_DRIVE : Nat) : Int) = 5 from rfl,
        Int.tmod_eq_emod_of_nonneg (Int.natCast_nonneg _)]
      omega
    have helem : element hd.primary ((n.val + 1 : Nat) : Int) =
        .ok (hd.primary n.succ) :=
      dif_pos ⟨Int.natCast_nonneg _, n.succ.isLt⟩
    have hfirst : (((n.val + 1 : Nat) : Int) - 1) *
        (NR_MAX_LOGI_PART_PER_EXT : Nat) = ((16 * n.val : Nat) : Int) := by
      rw [show ((NR_MAX_LOGI_PART_PER_EXT : Nat) : Int) = 16 from rfl]
      omega
    rw [readLogicalPartitions, hmod, helem]
    show logicalLoop disk 0 _ 16 0 (hd.primary n.succ).startSect hd = _
    rw [hE, hfirst]
    exact hrun
  · obtain ⟨hgoes, hstops⟩ := hin m j hm (Nat.zero_le j) (by omega)
    refine ⟨fun h => hgoes fun l _ hl => h l hl, fun h => hstops ?_⟩
    simp only [Reached, not_forall, not_not] at h
    obtain ⟨l, hl, hno⟩ := h
    exact ⟨l, Nat.zero_le l, hl, hno⟩

end Loop

/-! ## The first two records -/

section First

variable {disk : Nat → Byte} {E : BitVec 32} {chain rest : List Record}
  {r r' : Record}

/-- The entries are right exactly if the loop gets to every record, and finds at
    the sums what describes the partitions. -/
theorem placed_iff_sums (hlen : chain.length ≤ NR_MAX_LOGI_PART_PER_EXT) :
    Placed disk E chain ↔ ∀ (j : Nat) (r : Record), chain[j]? = some r →
      Reached disk E j ∧ sumPlace disk E j = r.place E := by
  have hroom : ∀ {j : Nat} {r : Record}, chain[j]? = some r → j < 16 := by
    intro j r hj
    exact Nat.lt_of_lt_of_le (List.getElem?_eq_some_iff.mp hj).1 hlen
  constructor
  · intro hplaced j r hj
    have hj16 := hroom hj
    -- before the call the entries hold something else
    obtain ⟨hd, hprimary, hlogical⟩ : ∃ hd : HdInfo,
        (∀ n, (hd.primary n).startSect = E) ∧
        ∀ m, hd.logical m = ⟨(r.place E).startSect + 1, 0⟩ :=
      ⟨⟨0, fun _ => ⟨E, 0⟩, fun _ => ⟨(r.place E).startSect + 1, 0⟩⟩,
        fun _ => rfl, fun _ => rfl⟩
    have hE : (hd.primary (0 : Fin 4).succ).startSect = E := hprimary _
    obtain ⟨hd', hrun, hright, -⟩ := hplaced hd 0 hE
    obtain ⟨hd'', hrun', -, -, hin⟩ := readLogicalPartitions_spec
      disk hd 0 hE
    cases hrun.symm.trans hrun'
    obtain ⟨m, hm⟩ : ∃ m : Fin 64, m.val = 16 * (0 : Fin 4).val + j :=
      ⟨⟨16 * (0 : Fin 4).val + j, by
        rw [show (0 : Fin 4).val = 0 from rfl]
        omega⟩, rfl⟩
    obtain ⟨hgoes, hstops⟩ := hin m j hm hj16
    have hplace := hright j r m hj hm
    have hreached : Reached disk E j := by
      by_contra hno
      have hstart := congrArg PartInfo.startSect
        ((hlogical m).symm.trans ((hstops hno).symm.trans hplace))
      dsimp only at hstart
      bv_omega
    exact ⟨hreached, (hgoes hreached).symm.trans hplace⟩
  · intro hsums hd n hE
    obtain ⟨hd', hrun, hprim, hout, hin⟩ := readLogicalPartitions_spec
      disk hd n hE
    refine ⟨hd', hrun, fun j r m hj hm => ?_, hout, hprim⟩
    obtain ⟨hreached, hplace⟩ := hsums j r hj
    exact ((hin m j hm (hroom hj)).1 hreached).trans hplace

/-- A record in the chain is within reach of the registers. -/
theorem WellFormed.table_at (disk : Nat → Byte) (wf : WellFormed E chain)
    (hr : r ∈ chain) (i : Nat) :
    getPartTable disk 0 (E + r.loc) i = sectorEntry disk (r.sector E) i := by
  have hreach := wf.reach r hr
  have hpos := wf.size_pos r hr
  rw [Record.sector] at hreach
  rw [getPartTable_eq, BitVec.toNat_add, Record.sector]
  congr 1
  omega

/-- Each record of the chain is on the disk. -/
theorem Holds.gives : ∀ {chain : List Record}, Holds disk E chain →
    ∀ r ∈ chain, Gives disk E r := by
  intro chain
  induction chain with
  | nil =>
      intro _ r hr
      cases hr
  | cons r chain ih =>
      intro h q hq
      cases chain with
      | nil =>
          obtain rfl := List.mem_singleton.mp hq
          exact h.1
      | cons next rest =>
          rcases List.mem_cons.mp hq with rfl | hq
          · exact h.1
          · exact ih h.2.2.2 q hq

/-- What a round stores that reads the table of a record. -/
theorem Holds.sumPlace_eq (wf : WellFormed E chain) (h : Holds disk E chain)
    (hr : r ∈ chain) {j : Nat} (hsum : sums disk E j = E + r.loc) :
    sumPlace disk E j = r.place E := by
  obtain ⟨-, hstart, hsize⟩ := h.gives r hr
  rw [sumPlace, hsum, wf.table_at disk hr, hstart, hsize, Record.place]

/-- The first record is the first sector of the extended partition. -/
theorem sums_zero (disk : Nat → Byte) (wf : WellFormed E (r :: rest)) :
    sums disk E 0 = E + r.loc := by
  have hloc : r.loc = 0#32 := wf.head_loc r rfl
  rw [hloc, BitVec.add_zero, sums]

/-- From the first record to the second one relative start is added. -/
theorem sums_one (wf : WellFormed E (r :: r' :: rest))
    (h : Holds disk E (r :: r' :: rest)) :
    sums disk E 1 = E + r'.loc ∧ Reached disk E 1 := by
  obtain ⟨-, hgo, hnext, -⟩ := h
  have htable := wf.table_at disk List.mem_cons_self 1
  have h0 := sums_zero disk wf
  refine ⟨?_, fun l hl => ?_⟩
  · rw [sums, h0, htable, hnext, ← h0, sums]
  · obtain rfl : l = 0 := by omega
    rw [h0, htable]
    exact hgo

/-- For the third the sum has two of them. -/
theorem sums_two {r'' : Record} (wf : WellFormed E (r :: r' :: r'' :: rest))
    (h : Holds disk E (r :: r' :: r'' :: rest)) :
    sums disk E 2 = E + r'.loc + r''.loc := by
  obtain ⟨h1, -⟩ := sums_one wf h
  have hmem : r' ∈ r :: r' :: r'' :: rest :=
    List.mem_cons_of_mem _ List.mem_cons_self
  rw [sums, h1, wf.table_at disk hmem, h.2.2.2.2.2.1]

/-- By accident: the loop gets to the third and the later records, and the
    tables at the sums put the same partitions at the same places. -/
def Mimicked (disk : Nat → Byte) (E : BitVec 32) (chain : List Record) : Prop :=
  ∀ (j : Nat) (r : Record), 2 ≤ j → chain[j]? = some r →
    Reached disk E j ∧ sumPlace disk E j = r.place E

/-- **ONE DISK**: the first two records are always placed as they say. -/
theorem placed_iff_mimicked (wf : WellFormed E chain) (h : Holds disk E chain) :
    Placed disk E chain ↔ Mimicked disk E chain := by
  rw [placed_iff_sums wf.length_le]
  constructor
  · exact fun hall j r _ hj => hall j r hj
  · intro hfar j r hj
    by_cases hj2 : 2 ≤ j
    · exact hfar j r hj2 hj
    have hr : r ∈ chain := List.mem_of_getElem? hj
    cases chain with
    | nil => cases hr
    | cons r₀ rest =>
        by_cases hj0 : j = 0
        · subst hj0
          obtain rfl : r₀ = r := Option.some.inj hj
          exact ⟨fun l hl => absurd hl (Nat.not_lt_zero l),
            h.sumPlace_eq wf hr (sums_zero disk wf)⟩
        · obtain rfl : j = 1 := by omega
          cases rest with
          | nil => cases hj
          | cons r₁ rest =>
              obtain rfl : r₁ = r := Option.some.inj hj
              obtain ⟨hsum, hreached⟩ := sums_one wf h
              exact ⟨hreached, h.sumPlace_eq wf hr hsum⟩

end First

/-! ## A disk with the chain and nothing else -/

/-- The two entries of a record. -/
def tableBytes (r : Record) (next : Option Record) : Nat → Byte :=
  putWord (putWord (putWord (fun k =>
    if k = 4 then 1 else if k = 20 ∧ next.isSome then EXT_PART else NO_PART)
    8 r.start) 12 r.size) 24 (next.elim 0 Record.loc)

/-- The records of the chain on an empty disk. -/
def chainDisk (E : BitVec 32) : List Record → Nat → Byte
  | [] => fun _ => 0
  | r :: rest => put (chainDisk E rest) (512 * r.sector E + PART_TABLE_OFFSET) 32
      (tableBytes r rest.head?)

section ChainDisk

variable {f b : Nat → Byte} {E v : BitVec 32} {chain rest : List Record}
  {r : Record} {next : Option Record} {s s' i o o' : Nat}

/-- An entry is read from its 16 bytes. -/
theorem partEntry_congr {b' : Nat → Byte} (h : ∀ k < 16, b' k = b k) :
    partEntry b' = partEntry b := by
  rw [partEntry, partEntry, h 4 (by omega)]
  congr 1
  · exact word_congr fun k hk => h (8 + k) (by omega)
  · exact word_congr fun k hk => h (12 + k) (by omega)

/-- The table that was put into a sector. -/
theorem sectorEntry_put (hi : i < 2) :
    sectorEntry (put f (512 * s + PART_TABLE_OFFSET) 32 b) s i =
      partEntry (drop b (16 * i)) := by
  refine partEntry_congr fun k hk => ?_
  rw [drop, drop, Nat.add_assoc _ (16 * i) k, put_at (by omega)]

/-- A table put into another sector. -/
theorem sectorEntry_put_of_ne (hs : s ≠ s') (hi : i < 2) :
    sectorEntry (put f (512 * s' + PART_TABLE_OFFSET) 32 b) s i =
      sectorEntry f s i := by
  refine partEntry_congr fun k hk => ?_
  rw [drop, drop, PART_TABLE_OFFSET]
  exact put_of_out (by omega)

/-- The first entry of a table is the partition. -/
theorem tableBytes_gives : partEntry (drop (tableBytes r next) (16 * 0)) =
    ⟨1, r.start, r.size⟩ := by
  rw [partEntry, Nat.mul_zero, drop_zero, tableBytes]
  congr 1
  · rw [word_putWord_of_out (by omega), word_putWord_of_out (by omega),
      word_putWord]
  · rw [word_putWord_of_out (by omega), word_putWord]

/-- The second entry links to the next table. -/
theorem tableBytes_next (r : Record) (next : Option Record) :
    (partEntry (drop (tableBytes r next) (16 * 1))).sysId =
        (if next.isSome then EXT_PART else NO_PART) ∧
      (partEntry (drop (tableBytes r next) (16 * 1))).startSect =
        next.elim 0 Record.loc := by
  constructor
  · show tableBytes r next 20 = _
    rw [tableBytes]
    cases next <;> rfl
  · show word (drop (tableBytes r next) 16) 8 = _
    rw [word_drop, tableBytes, word_putWord]

/-- A sector without a record has an empty table. -/
theorem chainDisk_empty (hi : i < 2) : ∀ (chain : List Record),
    (∀ r ∈ chain, s ≠ r.sector E) →
    sectorEntry (chainDisk E chain) s i = ⟨0, 0, 0⟩ := by
  intro chain
  induction chain with
  | nil =>
      have hzero : ∀ a, word (fun _ => 0) a = 0 := fun _ => by
        rw [word]
        decide
      exact fun _ => congrArg₂ (PartEntry.mk 0) (hzero 8) (hzero 12)
  | cons r rest ih =>
      intro h
      rw [chainDisk, sectorEntry_put_of_ne (h r List.mem_cons_self) hi]
      exact ih fun q hq => h q (List.mem_cons_of_mem r hq)

/-- A chain is held by what the tables of its records are. -/
theorem Holds.congr {disk disk' : Nat → Byte} : ∀ {chain : List Record},
    (∀ r ∈ chain, ∀ i < 2,
      sectorEntry disk' (r.sector E) i = sectorEntry disk (r.sector E) i) →
    Holds disk E chain → Holds disk' E chain := by
  intro chain
  induction chain with
  | nil => exact fun _ _ => trivial
  | cons r rest ih =>
      intro hsame h
      have h0 := hsame r List.mem_cons_self 0 (by omega)
      have h1 := hsame r List.mem_cons_self 1 (by omega)
      have hgives : Gives disk E r → Gives disk' E r := by
        rw [Gives, Gives, h0]
        exact id
      cases rest with
      | nil =>
          refine ⟨hgives h.1, ?_⟩
          rw [h1]
          exact h.2
      | cons next rest =>
          refine ⟨hgives h.1, ?_, ?_,
            ih (fun q hq => hsame q (List.mem_cons_of_mem r hq)) h.2.2.2⟩
          · rw [h1]
            exact h.2.1
          · rw [h1]
            exact h.2.2.1

/-- Every chain with its records in different sectors is on a disk. -/
theorem chainDisk_holds : ∀ {chain : List Record},
    (chain.map fun r => r.loc.toNat).Nodup →
    Holds (chainDisk E chain) E chain := by
  intro chain
  induction chain with
  | nil => exact fun _ => trivial
  | cons r rest ih =>
      intro hnodup
      obtain ⟨hnew, hrest⟩ := List.nodup_cons.mp hnodup
      have hne : ∀ q ∈ rest, q.sector E ≠ r.sector E := by
        intro q hq heq
        rw [Record.sector, Record.sector] at heq
        have hloc : q.loc.toNat = r.loc.toNat := by omega
        exact hnew (List.mem_map.mpr ⟨q, hq, hloc⟩)
      have hgives : Gives (chainDisk E (r :: rest)) E r := by
        rw [Gives, chainDisk, sectorEntry_put (by omega), tableBytes_gives]
        exact ⟨show (1 : Byte) ≠ NO_PART by decide, rfl, rfl⟩
      have hentry : sectorEntry (chainDisk E (r :: rest)) (r.sector E) 1 =
          partEntry (drop (tableBytes r rest.head?) (16 * 1)) :=
        sectorEntry_put (by omega)
      obtain ⟨hsys, hstart⟩ := tableBytes_next r rest.head?
      rw [← hentry] at hsys hstart
      cases rest with
      | nil => exact ⟨hgives, hsys⟩
      | cons next rest =>
          refine ⟨hgives, ?_, hstart, Holds.congr (fun q hq i hi => ?_) (ih hrest)⟩
          · rw [hsys]
            exact show EXT_PART ≠ NO_PART by decide
          · exact sectorEntry_put_of_ne (hne q hq) hi

end ChainDisk

/-! ## Where the logical partitions are -/

section Placing

variable {E : BitVec 32} {chain rest : List Record} {r r₀ r₁ r₂ : Record}

/-- **A THIRD RECORD** is not where the sum is.  There is another record there,
    with another partition, or none. -/
theorem not_placed_chainDisk (wf : WellFormed E (r₀ :: r₁ :: r₂ :: rest)) :
    ¬ Placed (chainDisk E (r₀ :: r₁ :: r₂ :: rest)) E
      (r₀ :: r₁ :: r₂ :: rest) := by
  obtain ⟨chain, hchain⟩ : ∃ chain, chain = r₀ :: r₁ :: r₂ :: rest := ⟨_, rfl⟩
  obtain ⟨disk, hdisk⟩ : ∃ disk, disk = chainDisk E chain := ⟨_, rfl⟩
  have hholds : Holds disk E chain := by
    rw [hdisk]
    exact chainDisk_holds (hchain ▸ wf.locs)
  have hsum : sums disk E 2 = E + r₁.loc + r₂.loc := by
    rw [hchain] at hholds
    exact sums_two wf hholds
  rw [← hchain] at wf ⊢
  rw [← hdisk, placed_iff_mimicked wf hholds]
  intro hmimic
  have hthird : chain[2]? = some r₂ := by rw [hchain]; rfl
  have hmem₁ : r₁ ∈ chain := List.mem_of_getElem? (i := 1) (by rw [hchain]; rfl)
  have hmem₂ : r₂ ∈ chain := List.mem_of_getElem? hthird
  obtain ⟨-, hplace⟩ := hmimic 2 r₂ (Nat.le_refl 2) hthird
  have hreach₁ := wf.reach r₁ hmem₁
  have hreach₂ := wf.reach r₂ hmem₂
  have hpos₁ := wf.size_pos r₁ hmem₁
  have hpos₂ := wf.size_pos r₂ hmem₂
  have hloc₁ : 0 < r₁.loc.toNat := by
    have hlocs := wf.locs
    have hhead := wf.head_loc r₀ (by rw [hchain]; rfl)
    rw [hchain, List.map_cons, List.map_cons, hhead] at hlocs
    have hne := (List.nodup_cons.mp hlocs).1
    refine Nat.pos_of_ne_zero fun hz => hne ?_
    rw [hz]
    exact List.mem_cons_self
  rw [Record.sector] at hreach₁ hreach₂
  rw [sumPlace, getPartTable_eq, Record.place, PartInfo.mk.injEq] at hplace
  obtain ⟨hstart, hsize⟩ := hplace
  have hnat : (sums disk E 2).toNat =
      E.toNat + r₁.loc.toNat + r₂.loc.toNat := by
    rw [hsum]
    bv_omega
  by_cases hfound : ∃ r ∈ chain, (sums disk E 2).toNat % 268435456 = r.sector E
  · obtain ⟨r, hr, hsector⟩ := hfound
    obtain ⟨-, hst, hsz⟩ := hholds.gives r hr
    rw [hsector, hst, hsum] at hstart
    have hreach := wf.reach r hr
    have hpos := wf.size_pos r hr
    rw [hnat] at hsector
    rw [Record.sector] at hsector hreach
    have hstarts : r₁.loc.toNat + r.start.toNat = r₂.start.toNat := by bv_omega
    -- a record there has another partition, as no two start in one sector
    have hsame : r = r₂ := List.inj_on_of_nodup_map wf.starts hr hmem₂
      (show r.loc.toNat + r.start.toNat = r₂.loc.toNat + r₂.start.toNat by omega)
    rw [hsame] at hsector
    omega
  · -- no record there, and the table is empty
    have hempty := chainDisk_empty (E := E) (i := 0)
      (s := (sums disk E 2).toNat % 268435456) (by omega) chain
      fun r hr heq => hfound ⟨r, hr, heq⟩
    rw [← hdisk] at hempty
    rw [hempty] at hsize
    rw [← hsize] at hpos₂
    exact absurd hpos₂ (by decide)

/-- **LOGICAL PARTITIONS** are placed as the chain says exactly in a chain
    without a third record.  In a longer one they are where the tables at the
    sums put them. -/
theorem logical_partitions_placed (wf : WellFormed E chain) :
    (∀ disk, Holds disk E chain →
      (Placed disk E chain ↔ chain.length ≤ 2 ∨ Mimicked disk E chain)) ∧
    ((∀ disk, Holds disk E chain → Placed disk E chain) ↔ chain.length ≤ 2) := by
  have hshort : ∀ disk, chain.length ≤ 2 → Mimicked disk E chain := by
    intro disk hlen j r hj hr
    have hlt := (List.getElem?_eq_some_iff.mp hr).1
    omega
  refine ⟨fun disk h => ?_, ?_, fun hlen disk h => ?_⟩
  · rw [placed_iff_mimicked wf h]
    exact ⟨Or.inr, fun hor => hor.elim (hshort disk) id⟩
  · intro hall
    by_contra hlong
    match chain, wf, hall, hlong with
    | [], _, _, hlong => exact hlong (Nat.zero_le 2)
    | [_], _, _, hlong => exact hlong (Nat.le_succ 1)
    | [_, _], _, _, hlong => exact hlong (Nat.le_refl 2)
    | _ :: _ :: _ :: _, wf, hall, _ =>
        exact not_placed_chainDisk wf (hall _ (chainDisk_holds wf.locs))
  · exact (placed_iff_mimicked wf h).mpr (hshort disk hlen)

end Placing

/-- The first `n` of three records in an extended partition at 0x1000. -/
def demoChain (n : Nat) : List Record :=
  [⟨0, 1, 0x400⟩, ⟨0x500, 1, 0x400⟩, ⟨0xA00, 1, 0x400⟩].take n

/-- The chain of the examples is well formed. -/
theorem demoChain_wellFormed : ∀ n ≤ 3, WellFormed 0x1000 (demoChain n) := by
  have hlength : ∀ n ≤ 3, (demoChain n).length ≤ NR_MAX_LOGI_PART_PER_EXT := by
    decide
  have hhead : ∀ n ≤ 3, ∀ r ∈ (demoChain n).head?, r.loc = 0 := by decide
  have hlocs : ∀ n ≤ 3, ((demoChain n).map fun r => r.loc.toNat).Nodup := by
    decide
  have hstarts : ∀ n ≤ 3,
      ((demoChain n).map fun r => r.loc.toNat + r.start.toNat).Nodup := by decide
  have hsize : ∀ n ≤ 3, ∀ r ∈ demoChain n, 0 < r.size.toNat := by decide
  have hreach : ∀ n ≤ 3, ∀ r ∈ demoChain n,
      r.sector 0x1000 + r.start.toNat + r.size.toNat ≤ 268435456 := by decide
  exact fun n hn => ⟨hlength n hn, hhead n hn, hlocs n hn, hstarts n hn,
    hsize n hn, hreach n hn⟩

/-- A chain of two partitions is placed. -/
theorem logical_partitions_placed_two :
    Placed (chainDisk 0x1000 (demoChain 2)) 0x1000 (demoChain 2) :=
  have wf := demoChain_wellFormed 2 (by decide)
  (logical_partitions_placed wf).2.mpr (by decide) _ (chainDisk_holds wf.locs)

/-- The third record is at 0x1A00, and the loop reads 0x1F00. -/
theorem third_partition_misplaced :
    ¬ ∀ (disk : Nat → Byte) (E : BitVec 32) (chain : List Record),
      WellFormed E chain → Holds disk E chain → Placed disk E chain := by
  intro hall
  have wf := demoChain_wellFormed 3 (by decide)
  exact not_placed_chainDisk wf (hall _ _ _ wf (chainDisk_holds wf.locs))

end KosPartition
