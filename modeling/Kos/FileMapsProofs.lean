import Kos.ExtentsProofs
import Kos.DiskRequestsProofs
import Kos.NewImageProofs

/-! # The maps and the files

    The inode map, the sector map, the inodes and the directory belong to a
    finite set of live inode numbers.

    * `Maps` is that the bits of the two maps are those of the live inodes and
      of their sectors, and of no two of them; `Listed` that the entries of the
      directory are of live inodes, each of one; `Loaded` that what is in
      `inode_table` is what is on the disk;
    * a new file puts a number in, a removed one takes it out
      (`maps_withEntry`, `maps_withoutFile`). -/

namespace KosFileMaps

open FlatMemory (Byte)
open Overlay
open Extents
open KosFs
open KosMkfs
open KosOpenFile (newInode grown putEntry)
open KosUnlink
open KosSectorMap (sectorNr mapSize sectorNr_eq)
open KosRootDirectory (RootDir numAt)
open KosInitFs (rootInodeOf ttyInode tarInode newInodes entryBytes)
open KosMkfsImage (Extent extentOf InUse)
open KosTables
open KosDiskImage
open KosDiskSteps
open KosDiskRequests
open KosNewImage

/-! ## The sectors of an inode -/

/-- The bit `y` is that of a sector of the inode. -/
def OwnsBit (sb : SuperBlock) (p : Inode) (y : Nat) : Prop :=
  1 ≤ y ∧ (extentOf p).Has (sb.nr1stDataSect.toNat + y - 1)

/-- The sectors of a file are in the data area and have bits in the map. -/
structure InData (sb : SuperBlock) (p : Inode) : Prop where
  sects : p.nrSects = BitVec.ofNat 32 NR_FILE_SECTS
  start : sb.nr1stDataSect.toNat ≤ p.sectStart.toNat
  ends : p.sectStart.toNat + NR_FILE_SECTS < sb.nr1stDataSect.toNat + mapSize sb

/-- What the inode of a live number is: the root directory, a file with sectors
    or a terminal without. -/
def Kind (sb : SuperBlock) (n : Nat) (p : Inode) : Prop :=
  if n = 1 then p.fileType = TYPE_DIRECTORY ∧ RootDir sb p
  else p.fileType = TYPE_REGULAR ∧ InData sb p ∨
    p.fileType = TYPE_SPECIAL_CHAR ∧ p.nrSects = 0

/-- The partition has a data area, and its sectors have numbers far below those
    of an `int`. -/
structure Fits (sb : SuperBlock) : Prop where
  made : Made sb
  small : sb.nr1stDataSect.toNat + mapSize sb ≤ 1073741824

section Sectors

variable {sb : SuperBlock} {p q : Inode} {n y β : Nat}

/-- The bit of the first sector. -/
def startBit (sb : SuperBlock) (p : Inode) : Nat :=
  p.sectStart.toNat - sb.nr1stDataSect.toNat + 1

/-- The bits that an inode with sectors owns. -/
theorem ownsBit_iff (h : InData sb p) : OwnsBit sb p y ↔
    startBit sb p ≤ y ∧ y < startBit sb p + NR_FILE_SECTS := by
  have hstart := h.start
  rw [OwnsBit, Extent.Has, extentOf, h.sects, startBit,
    show (BitVec.ofNat 32 NR_FILE_SECTS).toNat = NR_FILE_SECTS from rfl]
  dsimp only
  omega

/-- An inode without sectors owns no bit. -/
theorem ownsBit_none (h : p.nrSects = 0) : ¬ OwnsBit sb p y := by
  rw [OwnsBit, Extent.Has, extentOf, h]
  rintro ⟨-, hle, hlt⟩
  dsimp only at hle hlt
  rw [show (0 : BitVec 32).toNat = 0 from rfl] at hlt
  omega

/-- The bits of an inode are read from its extent. -/
theorem ownsBit_congr (hstart : q.sectStart = p.sectStart)
    (hsects : q.nrSects = p.nrSects) : OwnsBit sb q y ↔ OwnsBit sb p y := by
  rw [OwnsBit, OwnsBit, extentOf, extentOf, hstart, hsects]

/-- Lying in the data sectors is read from the extent. -/
theorem inData_congr (h : InData sb p) (hstart : q.sectStart = p.sectStart)
    (hsects : q.nrSects = p.nrSects) : InData sb q :=
  ⟨hsects.trans h.sects, hstart ▸ h.start, hstart ▸ h.ends⟩

/-- The directory begins with the data area. -/
theorem rootDir_inData (hm : Made sb) (h : RootDir sb p) : InData sb p := by
  have hsmap := hm.smap
  refine ⟨h.sects, Nat.le_of_eq (congrArg BitVec.toNat h.start).symm, ?_⟩
  rw [h.start, mapSize, NR_FILE_SECTS]
  omega

/-- The sectors from a bit of the map on. -/
theorem sectorNr_inData (h : Fits sb) (h1 : 1 ≤ β)
    (hend : β + NR_FILE_SECTS ≤ mapSize sb) :
    (BitVec.ofInt 32 (sectorNr sb β)).toNat = sb.nr1stDataSect.toNat + β - 1 := by
  have hsmall := h.small
  rw [sectorNr_eq h1 (by omega), BitVec.ofInt_natCast, BitVec.toNat_ofNat]
  omega

/-- A new file has the sectors of its bits. -/
theorem newInode_inData (h : Fits sb) (h1 : 1 ≤ β)
    (hend : β + NR_FILE_SECTS ≤ mapSize sb) :
    InData sb (newInode ROOT_DEV_NR n (sectorNr sb β)) ∧
      startBit sb (newInode ROOT_DEV_NR n (sectorNr sb β)) = β := by
  have hstart : (newInode ROOT_DEV_NR n (sectorNr sb β)).sectStart.toNat =
      sb.nr1stDataSect.toNat + β - 1 := sectorNr_inData h h1 hend
  refine ⟨⟨rfl, ?_, ?_⟩, ?_⟩
  · rw [hstart]
    omega
  · rw [hstart]
    omega
  · rw [startBit, hstart]
    omega

/-- The first sector of a file is that of its first bit. -/
theorem sectStart_eq (h : Fits sb) (hp : InData sb p) :
    p.sectStart = BitVec.ofInt 32 (sectorNr sb (startBit sb p)) := by
  have hstart := hp.start
  have hends := hp.ends
  refine BitVec.eq_of_toNat_eq ?_
  rw [sectorNr_inData h (by rw [startBit]; omega) (by rw [startBit]; omega),
    startBit]
  omega

/-- A change of the size keeps the kind of an inode. -/
theorem kind_size (h : Kind sb n p) (htype : q.fileType = p.fileType)
    (hstart : q.sectStart = p.sectStart) (hsects : q.nrSects = p.nrSects)
    (hsize : n = 1 → q.fileSize.toNat ≤ 2048 * 512) : Kind sb n q := by
  rw [Kind] at h ⊢
  by_cases h1 : n = 1
  · rw [if_pos h1] at h ⊢
    obtain ⟨hdir, hroot⟩ := h
    exact ⟨htype.trans hdir, hstart.trans hroot.start, hsects.trans hroot.sects,
      hsize h1⟩
  · rw [if_neg h1] at h ⊢
    rcases h with ⟨hreg, hdata⟩ | ⟨hchar, hnone⟩
    · exact Or.inl ⟨htype.trans hreg, inData_congr hdata hstart hsects⟩
    · exact Or.inr ⟨htype.trans hchar, hsects.trans hnone⟩

/-- A regular file lies in the data sectors and is not the root. -/
theorem regular_inData (h : Kind sb n p) (htype : p.fileType = TYPE_REGULAR) :
    n ≠ 1 ∧ InData sb p := by
  rw [Kind] at h
  by_cases h1 : n = 1
  · rw [if_pos h1, htype] at h
    exact absurd h.1 (by decide)
  · rw [if_neg h1, htype] at h
    rcases h with ⟨-, hdata⟩ | ⟨hchar, -⟩
    · exact ⟨h1, hdata⟩
    · exact absurd hchar (by decide)

end Sectors

/-! ## The maps -/

/-- **THE MAPS** are those of the live inodes. -/
structure Maps (sb : SuperBlock) (m : Image) (live : Finset Nat) : Prop where
  range : ∀ n ∈ live, 1 ≤ n ∧ n < 4096
  root : 1 ∈ live
  kind : ∀ n ∈ live, Kind sb n (m.inode n)
  inodes : Mapped (fun y => y = 0) live (fun n y => y = n) m.inodeBit
  sects : Mapped (fun y => y = 0) live (fun n => OwnsBit sb (m.inode n)) m.sectBit

section Maps

variable {sb : SuperBlock} {m m' : Image} {live : Finset Nat} {n β k : Nat}
  {p r : Inode} {name : List Byte}

/-- A number whose bit is set is live. -/
theorem live_of_bit (h : Maps sb m live) (hn : n ≠ 0) (hbit : m.inodeBit n = true) :
    n ∈ live := by
  rcases (h.inodes.used_iff n).mp hbit with h0 | ⟨j, hj, rfl⟩
  · exact absurd h0 hn
  · exact hj

/-- A live inode has its bit set. -/
theorem bit_of_live (h : Maps sb m live) (hn : n ∈ live) : m.inodeBit n = true :=
  used_of_owns h.inodes hn rfl

/-- The sizes of inodes have no part in the maps. -/
theorem maps_setInode (h : Maps sb m live) (htype : p.fileType = (m.inode n).fileType)
    (hstart : p.sectStart = (m.inode n).sectStart)
    (hsects : p.nrSects = (m.inode n).nrSects)
    (hsize : n = 1 → p.fileSize.toNat ≤ 2048 * 512) :
    Maps sb (m.setInode n p) live := by
  have hinode : ∀ j, (m.setInode n p).inode j =
      if j = n then asStored n p else m.inode j := fun j => Function.update_apply ..
  refine ⟨h.range, h.root, fun j hj => ?_, h.inodes,
    mapped_congr h.sects fun j hj y => ?_⟩
  · rw [hinode]
    by_cases hjn : j = n
    · rw [if_pos hjn]
      exact kind_size (h.kind j hj) (hjn ▸ htype) (hjn ▸ hstart) (hjn ▸ hsects)
        fun h1 => hsize (hjn ▸ h1)
    · rw [if_neg hjn]
      exact h.kind j hj
  · rw [hinode]
    by_cases hjn : j = n
    · rw [if_pos hjn, hjn]
      exact ownsBit_congr hstart hsects
    · rw [if_neg hjn]

/-- A write to the directory leaves the maps in agreement. -/
theorem maps_setDir (h : Maps sb m live) (g : Nat → Byte) :
    Maps sb (m.setDir g) live := ⟨h.range, h.root, h.kind, h.inodes, h.sects⟩

/-- A file in the image has the bits of its sectors. -/
theorem hasFile_of_live (hfits : Fits sb) (h : Maps sb m live) (hn : n ∈ live)
    (htype : (m.inode n).fileType = TYPE_REGULAR) :
    HasFile sb m n (startBit sb (m.inode n)) := by
  obtain ⟨-, hdata⟩ := regular_inData (h.kind n hn) htype
  have hstart := hdata.start
  have hends := hdata.ends
  refine ⟨h.range n hn, bit_of_live h hn, htype, sectStart_eq hfits hdata,
    hdata.sects, ?_, fun y h₁ h₂ => ?_⟩
  · rw [startBit]
    omega
  · exact used_of_owns h.sects hn ((ownsBit_iff hdata).mpr ⟨h₁, h₂⟩)

/-- **A FILE IS BEHIND THE ROOT DIRECTORY.** -/
theorem behind_root (hfits : Fits sb) (h : Maps sb m live) (hn : n ∈ live)
    (htype : (m.inode n).fileType = TYPE_REGULAR) :
    sb.nr1stDataSect.toNat + 2048 ≤ (m.inode n).sectStart.toNat ∧
      (m.inode n).sectStart.toNat < 1073741824 := by
  obtain ⟨hn1, hdata⟩ := regular_inData (h.kind n hn) htype
  have hroot : InData sb (m.inode 1) := by
    have hkind := h.kind 1 h.root
    rw [Kind, if_pos rfl] at hkind
    exact rootDir_inData hfits.made hkind.2
  have hroot' : (m.inode 1).sectStart = sb.nr1stDataSect := by
    have hkind := h.kind 1 h.root
    rw [Kind, if_pos rfl] at hkind
    exact hkind.2.start
  have hstart := hdata.start
  have hends := hdata.ends
  have hsmall := hfits.small
  refine ⟨?_, by omega⟩
  by_contra hlt
  -- the first bit of the file would be one of the directory
  refine hn1 (h.sects.one_owner n hn 1 h.root (startBit sb (m.inode n))
    ((ownsBit_iff hdata).mpr ⟨Nat.le_refl _, by rw [NR_FILE_SECTS]; omega⟩)
    ((ownsBit_iff hroot).mpr ?_))
  rw [startBit, startBit, hroot', NR_FILE_SECTS]
  omega

/-- What is taken was free: the number and the sectors of a new file are not
    those of the boot block of the map. -/
theorem free_pos (h : Maps sb m live) (hclear : m.inodeBit n = false)
    (hsects : ∀ y, β ≤ y → y < β + NR_FILE_SECTS → m.sectBit y = false) :
    n ≠ 0 ∧ n ∉ live ∧ 1 ≤ β := by
  refine ⟨?_, fun hn => ?_, ?_⟩
  · rintro rfl
    rw [(h.inodes.used_iff 0).mpr (Or.inl rfl)] at hclear
    cases hclear
  · rw [bit_of_live h hn] at hclear
    cases hclear
  · by_contra hβ
    have hzero := hsects 0 (by omega) (by rw [NR_FILE_SECTS]; omega)
    rw [(h.sects.used_iff 0).mpr (Or.inl rfl)] at hzero
    cases hzero

/-- **A NEW FILE** is live, whatever the directory says. -/
theorem maps_withEntry {g : Nat → Byte} (hfits : Fits sb) (h : Maps sb m live) (hn : n < 4096)
    (hclear : m.inodeBit n = false) (hend : β + NR_FILE_SECTS ≤ mapSize sb)
    (hsects : ∀ y, β ≤ y → y < β + NR_FILE_SECTS → m.sectBit y = false)
    (hp : p = newInode ROOT_DEV_NR n (sectorNr sb β))
    (htype : r.fileType = (m.inode 1).fileType)
    (hstart : r.sectStart = (m.inode 1).sectStart)
    (hnr : r.nrSects = (m.inode 1).nrSects)
    (hsize : r.fileSize.toNat ≤ 2048 * 512) :
    Maps sb (m.withEntry n β g p r) (insert n live) := by
  obtain ⟨hn0, hnew, hβ⟩ := free_pos h hclear hsects
  obtain ⟨hdata, hbit⟩ := newInode_inData (n := n) hfits hβ hend
  rw [← hp] at hdata hbit
  have hstored : InData sb (asStored n p) := inData_congr hdata rfl rfl
  have hn1 : n ≠ 1 := fun h1 => hnew (h1 ▸ h.root)
  obtain ⟨m₁, hm₁⟩ : ∃ m₁, m₁ = ((m.setInodeBit n true).takeSects β
    NR_FILE_SECTS).setInode n p := ⟨_, rfl⟩
  have hself : m₁.inode n = asStored n p := by
    rw [hm₁]
    exact setInode_same ..
  have hother : ∀ j, j ≠ n → m₁.inode j = m.inode j := by
    intro j hj
    rw [hm₁]
    exact setInode_other _ hj p
  have hlive : ∀ j ∈ live, m₁.inode j = m.inode j :=
    fun j hj => hother j fun hjn => hnew (hjn ▸ hj)
  have hfile : Maps sb m₁ (insert n live) := by
    refine ⟨fun j hj => ?_, Finset.mem_insert_of_mem h.root, fun j hj => ?_,
      mapped_insert h.inodes hnew (fun _ _ _ => Iff.rfl) (fun y hy => hy ▸ hclear)
        fun y => ?_,
      mapped_insert h.sects hnew (fun j hj y => by rw [hlive j hj])
        (fun y hy => ?_) fun y => ?_⟩
    · rcases Finset.mem_insert.mp hj with rfl | hj
      · exact ⟨by omega, hn⟩
      · exact h.range j hj
    · rcases Finset.mem_insert.mp hj with rfl | hj
      · rw [hself, Kind, if_neg hn1]
        refine Or.inl ⟨?_, hstored⟩
        rw [hp]
        rfl
      · rw [hlive j hj]
        exact h.kind j hj
    · rw [hm₁]
      show Function.update m.inodeBit n true y = true ↔ _
      by_cases hy : y = n
      · rw [hy, Function.update_self]
        exact iff_of_true rfl (Or.inr rfl)
      · rw [Function.update_of_ne hy]
        exact (or_iff_left hy).symm
    · rw [hself] at hy
      obtain ⟨h₁, h₂⟩ := (ownsBit_iff hdata).mp hy
      rw [hbit] at h₁ h₂
      exact hsects y h₁ h₂
    · have howns : OwnsBit sb (m₁.inode n) y ↔ β ≤ y ∧ y < β + NR_FILE_SECTS := by
        rw [hself, ownsBit_iff hstored, ← hbit]
        rfl
      rw [howns, hm₁]
      show (m.sectBit y || decide (β ≤ y ∧ y < β + NR_FILE_SECTS)) = true ↔ _
      rw [Bool.or_eq_true, decide_eq_true_eq]
  have hone := hlive 1 h.root
  have hall := maps_setInode (p := r) (maps_setDir hfile g) (n := 1)
    (htype.trans (congrArg Inode.fileType hone).symm)
    (hstart.trans (congrArg Inode.sectStart hone).symm)
    (hnr.trans (congrArg Inode.nrSects hone).symm) fun _ => hsize
  rw [hm₁] at hall
  exact hall

/-- **A REMOVED FILE** is not live any more. -/
theorem maps_withoutFile (h : Maps sb m live) (hfile : HasFile sb m n β)
    (hβ : β = startBit sb (m.inode n)) (hn1 : n ≠ 1)
    (htype : r.fileType = (m.inode 1).fileType)
    (hstart : r.sectStart = (m.inode 1).sectStart)
    (hnr : r.nrSects = (m.inode 1).nrSects)
    (hsize : r.fileSize.toNat ≤ 2048 * 512) :
    Maps sb (m.withoutFile n β k p r) (live.erase n) := by
  have hrange := hfile.range
  have hn : n ∈ live := live_of_bit h (by omega) hfile.bit
  obtain ⟨-, hdata⟩ := regular_inData (h.kind n hn) hfile.type
  obtain ⟨m₁, hm₁⟩ : ∃ m₁, m₁ = ((m.setInodeBit n false).freeSects β
    NR_FILE_SECTS).setInode n p := ⟨_, rfl⟩
  have hother : ∀ j, j ≠ n → m₁.inode j = m.inode j := by
    intro j hj
    rw [hm₁]
    exact setInode_other _ hj p
  have hroot : 1 ∈ live.erase n := Finset.mem_erase.mpr ⟨hn1.symm, h.root⟩
  have hless : Maps sb m₁ (live.erase n) := by
    refine ⟨fun j hj => h.range j (Finset.mem_of_mem_erase hj), hroot,
      fun j hj => ?_, mapped_erase h.inodes hn (fun _ _ _ _ => Iff.rfl)
        fun y => ?_,
      mapped_erase h.sects hn (fun j _ hj y => by rw [hother j hj]) fun y => ?_⟩
    · obtain ⟨hjn, hj⟩ := Finset.mem_erase.mp hj
      rw [hother j hjn]
      exact h.kind j hj
    · rw [hm₁]
      show Function.update m.inodeBit n false y = true ↔ _
      by_cases hy : y = n
      · rw [hy, Function.update_self]
        exact iff_of_false Bool.false_ne_true fun hset => hset.2 rfl
      · rw [Function.update_of_ne hy]
        exact (and_iff_left hy).symm
    · rw [ownsBit_iff hdata, ← hβ, hm₁]
      show (m.sectBit y && !decide (β ≤ y ∧ y < β + NR_FILE_SECTS)) = true ↔ _
      rw [Bool.and_eq_true, Bool.not_eq_true', decide_eq_false_iff_not]
  have hone := hother 1 hn1.symm
  have hall := maps_setInode (p := r) (maps_setDir hless
    (put m.dir (16 * k) 16 fun _ => 0)) (n := 1)
    (htype.trans (congrArg Inode.fileType hone).symm)
    (hstart.trans (congrArg Inode.sectStart hone).symm)
    (hnr.trans (congrArg Inode.nrSects hone).symm) fun _ => hsize
  rw [hm₁] at hall
  exact hall

end Maps

/-! ## The directory -/

/-- The entries of the root directory, as its size has them. -/
def entries (m : Image) : Nat := (m.inode 1).fileSize.toNat / 16

/-- **THE ENTRIES** are of live inodes, each of one. -/
structure Listed (m : Image) (live : Finset Nat) : Prop where
  few : entries m ≤ 4096
  live : ∀ k < entries m, numAt m.dir k ≠ 0 → ∃ n ∈ live, numAt m.dir k = n
  once : ∀ j < entries m, ∀ k < entries m, numAt m.dir j = numAt m.dir k →
    numAt m.dir j ≠ 0 → j = k

section Entries

variable {f : Nat → Byte} {j k n : Nat} {name : List Byte}

/-- The numbers of the directory with one entry written. -/
theorem numAt_putEntry (hlen : name.length ≤ 11) (hn : n < 4096) :
    numAt (putEntry f (16 * k) n name) j = if j = k then (n : Int)
      else numAt f j := by
  by_cases hj : j = k
  · rw [if_pos hj, hj]
    have hword : word (putEntry f (16 * k) n name) (16 * k) = BitVec.ofNat 32 n := by
      rw [← word_bytesOf (BitVec.ofNat 32 n)]
      refine word_congr fun l hl => ?_
      rw [KosOpenFile.putEntry_nr hl, Nat.zero_add]
      rfl
    have hnat : (BitVec.ofNat 32 n).toNat = n := by
      rw [BitVec.toNat_ofNat]
      omega
    rw [numAt, KosFileNames.entryNr, hword,
      BitVec.toInt_eq_toNat_of_lt (by omega), hnat]
  · rw [if_neg hj]
    refine congrArg BitVec.toInt (word_congr fun l hl => ?_)
    exact KosOpenFile.putEntry_of_out (by omega)

/-- The numbers of the directory with one entry cleared. -/
theorem numAt_cleared :
    numAt (put f (16 * k) 16 fun _ => 0) j = if j = k then 0 else numAt f j := by
  by_cases hj : j = k
  · rw [if_pos hj, hj]
    have hword : word (put f (16 * k) 16 fun _ => 0) (16 * k) =
        word (fun _ => 0) 0 := word_congr fun l hl => put_of_in (by omega)
    rw [numAt, KosFileNames.entryNr, hword]
    rfl
  · rw [if_neg hj]
    refine congrArg BitVec.toInt (word_congr fun l hl => ?_)
    exact put_of_out (by omega)

end Entries

section Listed

variable {sb : SuperBlock} {m m' : Image} {live : Finset Nat} {n β k : Nat}
  {free : Bool} {p r : Inode} {name : List Byte}

/-- Without a free entry there are as many as live inodes, at most. -/
theorem entries_lt (hrange : ∀ n ∈ live, 1 ≤ n ∧ n < 4096) (h : Listed m live)
    (hfull : ∀ j < entries m, numAt m.dir j ≠ 0) : entries m ≤ 4095 := by
  have hnum : ∀ j < entries m, 1 ≤ numAt m.dir j ∧ numAt m.dir j < 4096 := by
    intro j hj
    obtain ⟨n, hn, hnum⟩ := h.live j hj (hfull j hj)
    have hn := hrange n hn
    omega
  have hmem : ∀ j ∈ Finset.range (entries m),
      (numAt m.dir j).toNat - 1 ∈ Finset.range 4095 := by
    intro j hj
    have hj := hnum j (Finset.mem_range.mp hj)
    rw [Finset.mem_range]
    omega
  have hinj : Set.InjOn (fun j => (numAt m.dir j).toNat - 1)
      (Finset.range (entries m)) := by
    intro i hi j hj hij
    rw [Finset.mem_coe, Finset.mem_range] at hi hj
    have hnumi := hnum i hi
    have hnumj := hnum j hj
    dsimp only at hij
    exact h.once i hi j hj (by omega) (hfull i hi)
  have hcard := Finset.card_le_card_of_injOn _ hmem hinj
  rwa [Finset.card_range, Finset.card_range] at hcard

/-- The entries that are counted are those of a smaller directory. -/
theorem listed_mono (h : Listed m live) (hdir : m'.dir = m.dir)
    (hsize : entries m' ≤ entries m) : Listed m' live := by
  refine ⟨hsize.trans h.few, fun k hk => ?_, fun j hj k hk => ?_⟩
  · rw [hdir]
    exact h.live k (hk.trans_le hsize)
  · rw [hdir]
    exact h.once j (hj.trans_le hsize) k (hk.trans_le hsize)

/-- **A NEW FILE** has an entry. -/
theorem listed_withFile (hrange : ∀ n ∈ live, 1 ≤ n ∧ n < 4096)
    (h : Listed m live) (hn : n ≠ 0 ∧ n < 4096) (hnew : n ∉ live)
    (hlen : name.length ≤ 11) (hr : m.inode 1 = asStored 1 r)
    (hslot : if free = true then k < r.fileSize.toNat / 16 ∧ numAt m.dir k = 0
      else k = r.fileSize.toNat / 16)
    (hbefore : ∀ j < k, numAt m.dir j ≠ 0) :
    Listed (m.withFile n β k name p (grown free r)) (insert n live) := by
  obtain ⟨m', hm'⟩ : ∃ m', m' = m.withFile n β k name p (grown free r) :=
    ⟨_, rfl⟩
  have hold : entries m = r.fileSize.toNat / 16 := by
    rw [entries, hr]
    rfl
  have hdir : m'.dir = putEntry m.dir (16 * k) n name := by
    rw [hm']
    rfl
  have hsize : entries m' = (grown free r).fileSize.toNat / 16 := by
    have hinode : m'.inode 1 = asStored 1 (grown free r) := by
      rw [hm']
      exact setInode_same ..
    rw [entries, hinode]
    rfl
  have hfew := h.few
  -- the entry is one of the old ones, or the one behind them
  have hgrown : entries m' = (if free = true then entries m else entries m + 1) ∧
      k < entries m' ∧ entries m' ≤ 4096 ∧ ∀ j < entries m', j ≠ k → j < entries m := by
    rw [hsize, hold]
    cases free with
    | true =>
        rw [if_pos rfl] at hslot ⊢
        rw [grown, if_pos rfl]
        exact ⟨rfl, hslot.1, hold ▸ hfew, fun j hj _ => hj⟩
    | false =>
        rw [if_neg Bool.false_ne_true] at hslot ⊢
        have hlt := entries_lt hrange h fun j hj =>
          hbefore j (by rw [hslot, ← hold]; exact hj)
        have hadd : (grown false r).fileSize.toNat = r.fileSize.toNat + 16 := by
          rw [grown, if_neg Bool.false_ne_true]
          dsimp only
          rw [BitVec.toNat_add, show (16 : BitVec 32).toNat = 16 from rfl]
          omega
        rw [hadd]
        refine ⟨by omega, by omega, by omega, fun j hj hjk => by omega⟩
  obtain ⟨-, hk, hle, hold'⟩ := hgrown
  rw [← hm']
  have hnum : ∀ j, numAt m'.dir j = if j = k then (n : Int) else numAt m.dir j :=
    fun j => hdir ▸ numAt_putEntry hlen hn.2
  -- no other entry has the new number
  have hfresh : ∀ j < entries m', j ≠ k → numAt m.dir j ≠ n := by
    intro j hj hjk hjn
    obtain ⟨a, ha, hja⟩ := h.live j (hold' j hj hjk) (by omega)
    have han : a = n := by omega
    exact hnew (han ▸ ha)
  refine ⟨hle, fun j hj hne => ?_, fun i hi j hj hij hne => ?_⟩
  · rw [hnum] at hne ⊢
    by_cases hjk : j = k
    · rw [if_pos hjk]
      exact ⟨n, Finset.mem_insert_self n live, rfl⟩
    · rw [if_neg hjk] at hne ⊢
      obtain ⟨a, ha, hja⟩ := h.live j (hold' j hj hjk) hne
      exact ⟨a, Finset.mem_insert_of_mem ha, hja⟩
  · rw [hnum] at hne
    rw [hnum, hnum] at hij
    by_cases hik : i = k
    · by_cases hjk : j = k
      · exact hik.trans hjk.symm
      · rw [if_pos hik, if_neg hjk] at hij
        exact absurd hij.symm (hfresh j hj hjk)
    · rw [if_neg hik] at hij hne
      by_cases hjk : j = k
      · rw [if_pos hjk] at hij
        exact absurd hij (hfresh i hi hik)
      · rw [if_neg hjk] at hij
        exact h.once i (hold' i hi hik) j (hold' j hj hjk) hij hne

/-- Behind the last entry that is left there are none. -/
theorem sizeWithout_entries {f : Nat → Byte} {size : BitVec 32}
    (hsize : size.toNat / 16 ≤ 4096) :
    (sizeWithout f size k).toNat / 16 ≤ size.toNat / 16 ∧
      (k + 1 = size.toNat / 16 →
        (sizeWithout f size k).toNat / 16 = usedBefore f k ∧ usedBefore f k ≤ k) := by
  have hcount : usedBefore f k ≤ k := Nat.count_le _
  rw [sizeWithout]
  by_cases hlast : k + 1 = size.toNat / 16
  · have hnat : (BitVec.ofNat 32 (16 * usedBefore f k)).toNat =
        16 * usedBefore f k := by
      rw [BitVec.toNat_ofNat]
      omega
    rw [if_pos hlast, hnat]
    exact ⟨by omega, fun _ => ⟨by omega, hcount⟩⟩
  · rw [if_neg hlast]
    exact ⟨Nat.le_refl _, fun h => absurd h hlast⟩

/-- **A REMOVED FILE** has none. -/
theorem listed_withoutFile (h : Listed m live) (hr : m.inode 1 = asStored 1 r)
    (hk : k < r.fileSize.toNat / 16) (hnum : numAt m.dir k = n) :
    Listed (m.withoutFile n β k p { r with
      fileSize := sizeWithout m.dir r.fileSize k }) (live.erase n) := by
  obtain ⟨m', hm'⟩ : ∃ m', m' = m.withoutFile n β k p { r with
    fileSize := sizeWithout m.dir r.fileSize k } := ⟨_, rfl⟩
  have hold : entries m = r.fileSize.toNat / 16 := by
    rw [entries, hr]
    rfl
  have hsize : entries m' = (sizeWithout m.dir r.fileSize k).toNat / 16 := by
    have hinode : m'.inode 1 = asStored 1 { r with
        fileSize := sizeWithout m.dir r.fileSize k } := by
      rw [hm']
      exact setInode_same ..
    rw [entries, hinode]
    rfl
  have hfew := h.few
  rw [hold] at hfew
  obtain ⟨hle, -⟩ := sizeWithout_entries (f := m.dir) (k := k) hfew
  rw [← hsize, ← hold] at hle
  have hdir : ∀ j, numAt m'.dir j = if j = k then 0 else numAt m.dir j := by
    intro j
    rw [hm']
    exact numAt_cleared
  rw [← hm']
  rw [← hold] at hk
  refine ⟨by omega, fun j hj hne => ?_, fun i hi j hj hij hne => ?_⟩
  · rw [hdir] at hne ⊢
    by_cases hjk : j = k
    · rw [if_pos hjk] at hne
      exact absurd rfl hne
    · rw [if_neg hjk] at hne ⊢
      obtain ⟨a, ha, hja⟩ := h.live j (by omega) hne
      refine ⟨a, Finset.mem_erase.mpr ⟨fun han => hjk ?_, ha⟩, hja⟩
      exact h.once j (by omega) k hk (by rw [hja, hnum, han]) hne
  · rw [hdir] at hne
    rw [hdir, hdir] at hij
    by_cases hik : i = k
    · rw [if_pos hik] at hne
      exact absurd rfl hne
    · rw [if_neg hik] at hij hne
      by_cases hjk : j = k
      · rw [if_pos hjk] at hij
        exact absurd hij hne
      · rw [if_neg hjk] at hij
        exact h.once i (by omega) j (by omega) hij hne

end Listed

/-! ## `inode_table` -/

/-- An entry in use is a live inode as it is on the disk. -/
def EntryOf (m : Image) (live : Finset Nat) (p : Inode) : Prop :=
  p.cnt ≠ 0 → p.dev = ROOT_DEV_NR ∧
    ∃ n ∈ live, p.nr = (n : Int) ∧ m.inode n = asStored n p

/-- **THE TABLES** hold live inodes, and the descriptors in use are somewhere in
    their files. -/
structure Loaded (m : Image) (live : Finset Nat) (s : Fs) : Prop where
  entry : ∀ i, EntryOf m live (s.inodeTable i)
  root : (s.inodeTable s.rootInode).nr = ROOT_INODE_NR
  pos : ∀ d, (s.fileDescTable d).inode ≠ none →
    0 ≤ (s.fileDescTable d).pos ∧ (s.fileDescTable d).pos < 2147483648

section Loaded

variable {m m' : Image} {live live' : Finset Nat} {s t : Fs} {n : Nat} {p q : Inode}
  {i : Fin NR_INODE} {d : Fin NR_FILE_DESC}

/-- An inode that is loaded as it is stored stands for its number. -/
theorem entry_self (hn : n ∈ live) (hdev : p.dev = ROOT_DEV_NR) (hnr : p.nr = n)
    (hm : m.inode n = asStored n p) : EntryOf m live p :=
  fun _ => ⟨hdev, n, hn, hnr, hm⟩

/-- An entry of another number. -/
theorem entry_other (h : EntryOf m live p) (hnr : p.cnt ≠ 0 → p.nr ≠ n)
    (hlive : ∀ j ∈ live, j ≠ n → j ∈ live')
    (hm : ∀ j ∈ live, j ≠ n → m'.inode j = m.inode j) : EntryOf m' live' p := by
  intro hcnt
  obtain ⟨hdev, j, hj, hpj, hstored⟩ := h hcnt
  have hjn : j ≠ n := fun heq => hnr hcnt (heq ▸ hpj)
  exact ⟨hdev, j, hlive j hj hjn, hpj, (hm j hj hjn).trans hstored⟩

/-- The loaded inodes are read from the inode table and the slots alone. -/
theorem loaded_congr (h : SameTables s t) (hs : Loaded m live s) :
    Loaded m live t := by
  refine ⟨fun i => ?_, ?_, fun d => ?_⟩
  · rw [h.inodes]
    exact hs.entry i
  · rw [h.inodes, h.root]
    exact hs.root
  · rw [h.descs]
    exact hs.pos d

/-- The directory is not in the tables. -/
theorem loaded_image (hs : Loaded m live s) (h : m'.inode = m.inode) :
    Loaded m' live s := by
  refine ⟨fun i hcnt => ?_, hs.root, hs.pos⟩
  obtain ⟨hdev, n, hn, hnr, hstored⟩ := hs.entry i hcnt
  exact ⟨hdev, n, hn, hnr, h ▸ hstored⟩

/-- **ONE ENTRY CHANGES**, and the inode of its number with it; no other entry in
    use has the number. -/
theorem loaded_update (hs : Loaded m live s)
    (htable : t.inodeTable = Function.update s.inodeTable i q)
    (hdescs : t.fileDescTable = s.fileDescTable) (hroot : t.rootInode = s.rootInode)
    (hother : ∀ j, j ≠ i → (s.inodeTable j).cnt ≠ 0 → (s.inodeTable j).nr ≠ n)
    (hlive : ∀ j ∈ live, j ≠ n → j ∈ live')
    (hm : ∀ j ∈ live, j ≠ n → m'.inode j = m.inode j) (hentry : EntryOf m' live' q)
    (hnr : i = s.rootInode → q.nr = ROOT_INODE_NR) : Loaded m' live' t := by
  refine ⟨fun j => ?_, ?_, fun d => hdescs ▸ hs.pos d⟩
  · rw [htable, Function.update_apply]
    by_cases hj : j = i
    · rw [if_pos hj]
      exact hentry
    · rw [if_neg hj]
      exact entry_other (hs.entry j) (hother j hj) hlive hm
  · rw [htable, hroot, Function.update_apply]
    by_cases hi : s.rootInode = i
    · rw [if_pos hi]
      exact hnr hi.symm
    · rw [if_neg hi]
      exact hs.root

/-- A descriptor moves. -/
theorem loaded_updDesc {f : FileDesc → FileDesc} (hs : Loaded m live s)
    (hf : (f (s.fileDescTable d)).inode ≠ none →
      0 ≤ (f (s.fileDescTable d)).pos ∧
        (f (s.fileDescTable d)).pos < 2147483648) :
    Loaded m live (s.updDesc d f) := by
  refine ⟨hs.entry, hs.root, fun e => ?_⟩
  have htable : (s.updDesc d f).fileDescTable e =
      if e = d then f (s.fileDescTable d) else s.fileDescTable e :=
    Function.update_apply ..
  rw [htable]
  by_cases he : e = d
  · rw [if_pos he]
    exact hf
  · rw [if_neg he]
    exact hs.pos e

/-- A new descriptor is at the beginning of its file. -/
theorem loaded_connect (hs : Loaded m live s) (pid : Int) (fd : Fin NR_FILES)
    (flags : BitVec 32) :
    Loaded m live (KosOpenFile.connect s pid fd d i flags) := by
  refine ⟨hs.entry, hs.root, fun e => ?_⟩
  have htable : (KosOpenFile.connect s pid fd d i flags).fileDescTable e =
      if e = d then { mode := flags, pos := 0, cnt := 1, inode := some i }
        else s.fileDescTable e := Function.update_apply ..
  rw [htable]
  by_cases he : e = d
  · rw [if_pos he]
    exact fun _ => ⟨Int.le_refl 0, show (0 : Int) < 2147483648 by decide⟩
  · rw [if_neg he]
    exact hs.pos e

end Loaded

/-! ## A new file system -/

/-- The numbers of the root directory, the terminals and `cmd.tar`. -/
def firstInodes : Finset Nat := {1, 2, 3, 4, 5}

section New

variable {sb : SuperBlock} {m : Image} {n y : Nat}

/-- The inodes of a new image. -/
theorem mem_firstInodes : n ∈ firstInodes ↔ 1 ≤ n ∧ n < 6 := by
  rw [firstInodes]
  simp only [Finset.mem_insert, Finset.mem_singleton]
  omega

/-- What each of the first inodes is. -/
theorem new_kind (h : NewImage sb m) (hfirst : sb.nr1stDataSect.toNat ≤ 32768)
    (hlast : 34816 < sb.nr1stDataSect.toNat + mapSize sb) (hn : n ∈ firstInodes) :
    Kind sb n (m.inode n) ∧ (n ≠ 1 → n ≠ 5 → (m.inode n).nrSects = 0) := by
  obtain ⟨h1, h2⟩ := mem_firstInodes.mp hn
  obtain ⟨j, rfl⟩ : ∃ j, n = j + 1 := ⟨n - 1, by omega⟩
  have hj : j < (newInodes sb).length := show j < 5 by omega
  rw [h.inode j hj, Kind]
  rcases (show j = 0 ∨ j = 1 ∨ j = 2 ∨ j = 3 ∨ j = 4 by omega) with
    rfl | rfl | rfl | rfl | rfl
  · exact ⟨⟨rfl, rfl, rfl, show (80 : BitVec 32).toNat ≤ _ by decide⟩,
      fun hne => absurd rfl hne⟩
  · exact ⟨Or.inr ⟨rfl, rfl⟩, fun _ _ => rfl⟩
  · exact ⟨Or.inr ⟨rfl, rfl⟩, fun _ _ => rfl⟩
  · exact ⟨Or.inr ⟨rfl, rfl⟩, fun _ _ => rfl⟩
  · refine ⟨Or.inl ⟨rfl, rfl, ?_, ?_⟩, fun _ hne => absurd rfl hne⟩
    · exact hfirst
    · exact hlast

/-- The bits of the first inodes. -/
theorem new_owns (h : NewImage sb m) (hfirst : sb.nr1stDataSect.toNat ≤ 32768)
    (hlast : 34816 < sb.nr1stDataSect.toNat + mapSize sb) (hn : n ∈ firstInodes) :
    OwnsBit sb (m.inode n) y ↔ n = 1 ∧ 1 ≤ y ∧ y < 2049 ∨
      n = 5 ∧ 32769 - sb.nr1stDataSect.toNat ≤ y ∧
        y < 34817 - sb.nr1stDataSect.toNat := by
  by_cases h1 : n = 1
  · have hroot : m.inode n = asStored 1 (rootInodeOf sb) := by
      rw [h1]
      exact h.inode 0 (show 0 < 5 by omega)
    have hext : extentOf (m.inode n) = ⟨sb.nr1stDataSect.toNat, 2048⟩ := by
      rw [hroot]
      rfl
    rw [OwnsBit, Extent.Has, hext]
    dsimp only
    omega
  · by_cases h5 : n = 5
    · have htar : m.inode n = asStored 5 tarInode := by
        rw [h5]
        exact h.inode 4 (show 4 < 5 by omega)
      have hext : extentOf (m.inode n) = ⟨32768, 2048⟩ := by
        rw [htar]
        decide
      rw [OwnsBit, Extent.Has, hext]
      dsimp only
      omega
    · obtain ⟨-, hzero⟩ := new_kind h hfirst hlast hn
      refine iff_of_false (ownsBit_none (hzero h1 h5)) ?_
      omega

/-- **THE MAPS OF A NEW FILE SYSTEM**, where the extents are apart. -/
theorem maps_new (h : NewImage sb m)
    (hfirst : sb.nr1stDataSect.toNat + 2048 ≤ 32768)
    (hlast : 34816 < sb.nr1stDataSect.toNat + mapSize sb) :
    Maps sb m firstInodes := by
  have howns := fun {n y : Nat} => new_owns (n := n) (y := y) h (by omega) hlast
  refine ⟨fun n hn => ?_, by decide,
    fun n hn => (new_kind h (by omega) hlast hn).1, ?_, ?_⟩
  · have hn := mem_firstInodes.mp hn
    omega
  · refine ⟨fun i _ j _ y h₁ h₂ => h₁.symm.trans h₂, fun i hi y hy h0 => ?_,
      fun y => ?_⟩
    · have hi := mem_firstInodes.mp hi
      omega
    · rw [h.inodeBit]
      constructor
      · intro hy
        by_cases h0 : y = 0
        · exact Or.inl h0
        · exact Or.inr ⟨y, mem_firstInodes.mpr (by omega), rfl⟩
      · rintro (h0 | ⟨i, hi, rfl⟩)
        · omega
        · exact (mem_firstInodes.mp hi).2
  · refine ⟨fun i hi j hj y h₁ h₂ => ?_, fun i _ y hy h0 => ?_, fun y => ?_⟩
    · have h₁ := (howns hi).mp h₁
      have h₂ := (howns hj).mp h₂
      omega
    · have hpos := hy.1
      omega
    · rw [h.sectBit, KosMkfsImage.inUse_iff (by omega)]
      constructor
      · rintro ⟨-, hy⟩
        by_cases h0 : y = 0
        · exact Or.inl h0
        · rcases hy with hy | hy
          · exact Or.inr ⟨1, by decide,
              (howns (by decide)).mpr (Or.inl ⟨rfl, by omega, hy⟩)⟩
          · exact Or.inr ⟨5, by decide, (howns (by decide)).mpr (Or.inr ⟨rfl, hy⟩)⟩
      · rintro (h0 | ⟨i, hi, hy⟩)
        · omega
        · have hy := (howns hi).mp hy
          omega

/-- A new image has five directory entries. -/
theorem entries_new (h : NewImage sb m) : entries m = 5 := by
  rw [entries, h.inode 0 (show 0 < 5 by omega)]
  exact (by decide : (16 * 5 : BitVec 32).toNat / 16 = 5)

/-- The entries of a new file system. -/
theorem listed_new (h : NewImage sb m) : Listed m firstInodes := by
  have hsize := entries_new h
  have hbytes : ∀ k < 5, numAt entryBytes k = (k + 1 : Nat) := by decide
  have hnum : ∀ k < 5, numAt m.dir k = (k + 1 : Nat) := by
    intro k hk
    have hword : numAt m.dir k = numAt entryBytes k :=
      congrArg BitVec.toInt (word_congr fun l hl => h.dir _ (by omega))
    rw [hword, hbytes k hk]
  refine ⟨by omega, fun k hk _ => ?_, fun j hj k hk hjk _ => ?_⟩
  · rw [hsize] at hk
    exact ⟨k + 1, mem_firstInodes.mpr (by omega), hnum k hk⟩
  · rw [hsize] at hj hk
    rw [hnum j hj, hnum k hk] at hjk
    omega

end New

end KosFileMaps
