import Kos.DiskStepsProofs

/-! # Where the functions write

    The functions of which requests are made write to the maps, the inodes and
    the root directory.  The super block in front of them and the sectors of the
    other files behind them keep their bytes (`OuterKept`). -/

namespace KosDiskRegions

open FlatMemory (Byte)
open Overlay
open BitMap (Clears byte_of_marks byte_of_clears)
open FrameRule
open KosFs
open KosMkfs
open KosInodeArray
open KosOpenFile
open KosUnlink
open KosSectorMap (allocSectMapBit mapSize mapByte)
open KosRootDirectory
open KosMkfsImage (mapByte_made)
open KosTables
open KosDiskImage
open KosDiskSteps

/-- A byte in front of the maps, or behind the root directory. -/
def Outer (sb : SuperBlock) (x : Nat) : Prop :=
  x < 1024 ∨ dirByte sb + DIR_BYTES ≤ x

/-- The bytes behind the maps and the array are as they were. -/
def OuterKept (sb : SuperBlock) (s t : Fs) : Prop :=
  ∀ x, Outer sb x → t.disk ROOT_DEV_NR x = s.disk ROOT_DEV_NR x

instance (sb : SuperBlock) : IsPreorder Fs (OuterKept sb) where
  refl _ := fun _ _ => rfl
  trans _ _ _ h₁ h₂ := fun x hx => (h₂ x hx).trans (h₁ x hx)

section Functions

variable {sb : SuperBlock} {s t : Fs} {nr a : Int} {n : Nat} {i root : Fin NR_INODE}
  {p r : Inode} {u : Unit} {name : List Byte} {flags : BitVec 32}

/-- The disk unchanged is the outer disk unchanged. -/
theorem outer_of_eq (h : t.disk = s.disk) : OuterKept sb s t := by
  intro x _
  rw [h]

/-- The device has become `f`. -/
theorem outer_disk {f : Nat → Byte} (h : t.disk = Function.update s.disk ROOT_DEV_NR f)
    (hf : ∀ x, Outer sb x → f x = s.disk ROOT_DEV_NR x) : OuterKept sb s t := by
  intro x hx
  rw [h, Function.update_self]
  exact hf x hx

/-- `write_inode` stays inside the inode array. -/
theorem outer_writeInode (hm : Made sb) (hsb : s.superOf ROOT_DEV_NR = some sb)
    (hp : s.inodeTable i = p) (hdev : p.dev = ROOT_DEV_NR) (hnr : p.nr = n)
    (h1 : 1 ≤ n) (h2 : n ≤ 4096) (h : writeInode i s = .ok u t) :
    OuterKept sb s t := by
  obtain ⟨sb', hsb', -, rfl⟩ := run_writeInode.mp h
  rw [hp, hdev, hsb] at hsb'
  obtain rfl := Option.some.inj hsb'
  obtain ⟨h₁, h₂, -⟩ := region_bytes hm
  have hentry := entryByte_eq hm h1 h2
  refine outer_disk (f := put (s.disk ROOT_DEV_NR) (entryByte sb n) 16 (entryOf p))
    ?_ fun x hx => put_of_out ?_
  · rw [Fs.written, hp, hdev, hnr]
  · rw [Outer] at hx
    omega

/-- A bit of the inode map is no outer byte. -/
theorem outer_allocInode (hm : Made sb)
    (h : allocInodeMapBit ROOT_DEV_NR s = .ok nr t) : OuterKept sb s t := by
  rcases run_allocInodeMapBit h with ⟨-, -, g, rfl⟩ | ⟨b, f, g, hfirst, -, hmarks, rfl⟩
  · exact outer_of_eq rfl
  · obtain ⟨h₁, h₂, -⟩ := region_bytes hm
    have hb := hfirst.2.1
    refine outer_disk rfl fun x hx => byte_of_marks hmarks ?_
    rw [Outer] at hx
    omega

/-- Nor are the bits of the sector map. -/
theorem outer_allocSects (hm : Made sb) (hsb : s.superOf ROOT_DEV_NR = some sb)
    (hn : 0 < n) (h : allocSectMapBit ROOT_DEV_NR n s = .ok a t) :
    OuterKept sb s t := by
  obtain ⟨b, f, g, hrun, -, hmarks, rfl⟩ :=
    KosSectorMap.alloc_run hsb hn (fun z hz => sectorNr_ne hm hz) h
  obtain ⟨-, -, -, -, hend, -⟩ := hrun
  obtain ⟨h₁, h₂, h₃⟩ := region_bytes hm
  rw [mapSize] at hend
  refine outer_disk rfl fun x hx => byte_of_marks hmarks ?_
  rw [Outer] at hx
  rw [mapByte_made hm]
  omega

/-- Loading an inode writes no outer byte. -/
theorem outer_getFileInode {q : Option (Fin NR_INODE)} (hnr : nr ≠ 0)
    (h : getFileInode ROOT_DEV_NR nr s = .ok q t) : OuterKept sb s t := by
  obtain ⟨i, rfl, ⟨-, rfl⟩ | ⟨-, -, sb', -, -, rfl⟩⟩ := run_getFileInode hnr h
  · exact outer_of_eq rfl
  · exact outer_of_eq rfl

/-- A new inode is written inside the inode array. -/
theorem outer_newInode {start : Int} (hm : Made sb)
    (hsb : s.superOf ROOT_DEV_NR = some sb) (h1 : 1 ≤ n) (h2 : n ≤ 4096)
    (h : makeNewInode ROOT_DEV_NR n start s = .ok i t) : OuterKept sb s t := by
  obtain ⟨hne, v, sb', hget, hsb', hst, ht⟩ := run_makeNewInode h
  obtain ⟨j, w, hj, hobt, hv⟩ := becomes_getFileInode sb hne hget
  cases hj
  have hw : writeInode i (v.updInode i fun _ => newInode ROOT_DEV_NR n start) =
      .ok () t := by
    refine run_writeInode.mpr ⟨sb', ?_, ?_, ht⟩
    · rw [updInode_self]
      exact hsb'
    · rw [updInode_self]
      exact hst
  have hsuper : v.superOf ROOT_DEV_NR = some sb := by
    refine (superOf_congr (s := s) (hv.tables.supers.trans ?_)).trans hsb
    cases hobt <;> rfl
  exact trans_of (OuterKept sb) (outer_getFileInode hne hget)
    (outer_writeInode (s := v.updInode i fun _ => newInode ROOT_DEV_NR n start) hm
      hsuper (updInode_self v _) rfl rfl h1 h2 hw)

/-- `O_TRUNC` stays inside the inode array. -/
theorem outer_trunc (hm : Made sb) (hsb : s.superOf ROOT_DEV_NR = some sb)
    (hp : s.inodeTable i = p) (hdev : p.dev = ROOT_DEV_NR) (hnr : p.nr = n)
    (h1 : 1 ≤ n) (h2 : n ≤ 4096) (h : truncInode flags (some i) s = .ok u t) :
    OuterKept sb s t := by
  rw [truncInode] at h
  split at h
  · cases h
    exact refl_of (OuterKept sb) s
  · obtain ⟨_, v, hmod, hw⟩ := run_bind.mp h
    obtain rfl := run_modify.mp hmod
    have hinode := updInode_self s (i := i) fun p => { p with fileSize := 0 }
    rw [hp] at hinode
    exact outer_writeInode (s := s.updInode i fun p => { p with fileSize := 0 }) hm hsb
      hinode hdev hnr h1 h2 hw

/-- A sector of the directory is written, and its inode. -/
theorem outer_newEntry (hm : Made sb) (hsb : s.superOf ROOT_DEV_NR = some sb)
    (hr : s.inodeTable root = r) (hdev : r.dev = ROOT_DEV_NR)
    (hnr : r.nr = ROOT_INODE_NR) (hdir : RootDir sb r)
    (hsize : r.fileSize.toNat < DIR_BYTES)
    (h : makeNewDirEntry root nr name s = .ok u t) : OuterKept sb s t := by
  obtain ⟨hstart, h16, -, h512⟩ := placed_numbers (placed_of_rootDir hm hdir)
  have hbytes : DIR_BYTES = 1048576 := rfl
  obtain ⟨i, j, free, b, g, v, hi, -, -, -, -, hv, hw⟩ :=
    run_makeNewDirEntry hr h16 h512 (by omega) (by omega) h
  have hfirst : 512 * r.sectStart.toNat = dirByte sb := by
    rw [hdir.start]
    rfl
  rw [hstart, hdev, ← Int.natCast_add, Int.toNat_natCast, Nat.mul_add, hfirst] at hv
  obtain ⟨h₁, h₂, -⟩ := region_bytes hm
  have hinode : v.inodeTable root = grown free r := by
    rw [hv, ← hr]
    exact updInode_self s (grown free)
  have hkeep : (grown free r).dev = ROOT_DEV_NR ∧
      (grown free r).nr = (1 : Nat) := by
    rw [grown, ← hdev, show ((1 : Nat) : Int) = ROOT_INODE_NR from rfl, ← hnr]
    split <;> exact ⟨rfl, rfl⟩
  have hsector : OuterKept sb s v := by
    refine outer_disk (by rw [hv]) fun x hx => put_of_out ?_
    rw [Outer] at hx
    omega
  refine trans_of (OuterKept sb) hsector (outer_writeInode hm ?_ hinode hkeep.1
    hkeep.2 (by decide) (by decide) hw)
  rw [← hsb, hv]
  rfl

/-- The bit of a removed inode is no outer byte. -/
theorem outer_clearInode (hm : Made sb)
    (h : clearInodeMapBit ROOT_DEV_NR nr s = .ok u t) : OuterKept sb s t := by
  obtain ⟨h₁, h₂, -⟩ := region_bytes hm
  have hwr : Keeps (OuterKept sb) (wrSects ROOT_DEV_NR 2 1) := by
    intro v _ w h
    obtain ⟨-, rfl⟩ := run_wrSects.mp h
    refine outer_disk rfl fun x hx => put_of_out ?_
    rw [Outer] at hx
    rw [show (2 : Int).toNat = 2 from rfl]
    omega
  have hcheck : ∀ (c : Prop) [Decidable c], Keeps (OuterKept sb) (check c) :=
    fun _ => keeps_ite (fun _ => keeps_pure _) fun _ => keeps_throw _
  have hkeeps : Keeps (OuterKept sb) (clearInodeMapBit ROOT_DEV_NR nr) := by
    refine keeps_bind (hcheck _) fun _ => keeps_bind ?_ fun _ =>
      keeps_ite (fun _ => keeps_throw _) fun _ => keeps_bind ?_ fun _ => hwr
    · intro v _ w h
      obtain ⟨-, rfl⟩ := run_rdSects.mp h
      exact outer_of_eq rfl
    · exact keeps_get fun _ => keeps_bind (hcheck _) fun _ =>
        keeps_modify fun v => outer_of_eq rfl
  exact hkeeps _ _ _ h

/-- Cleared bits of the sector map are no outer bytes. -/
theorem outer_clears {b : Nat} (hm : Made sb) (hend : b + n ≤ mapSize sb)
    (h : Clears (s.disk ROOT_DEV_NR) (t.disk ROOT_DEV_NR) (8 * mapByte sb + b) n) :
    OuterKept sb s t := by
  obtain ⟨h₁, h₂, h₃⟩ := region_bytes hm
  rw [mapSize] at hend
  refine fun x hx => byte_of_clears h ?_
  rw [Outer] at hx
  rw [mapByte_made hm]
  omega

/-- The fields of a removed inode are in the inode array. -/
theorem outer_clearFields (hm : Made sb) (hsb : s.superOf ROOT_DEV_NR = some sb)
    (hp : s.inodeTable i = p) (hdev : p.dev = ROOT_DEV_NR) (hnr : p.nr = n)
    (h1 : 1 ≤ n) (h2 : n ≤ 4096) (h : clearInodeFields i s = .ok u t) :
    OuterKept sb s t := by
  obtain ⟨_, v, hmod, h⟩ := run_bind.mp h
  obtain rfl := run_modify.mp hmod
  obtain ⟨_, w, hw, hput⟩ := run_bind.mp h
  obtain ⟨-, rfl⟩ := putInode_tables hput
  have hinode := updInode_self s (i := i) emptied
  rw [hp] at hinode
  have hwritten : OuterKept sb s w := outer_writeInode (s := s.updInode i emptied) hm
    hsb hinode hdev hnr h1 h2 hw
  exact trans_of (OuterKept sb) hwritten (outer_of_eq rfl)

/-- The entry of a removed file is in the root directory. -/
theorem outer_clearEntry (hm : Made sb) (hsb : s.superOf ROOT_DEV_NR = some sb)
    (hr : s.inodeTable root = r) (hdev : r.dev = ROOT_DEV_NR)
    (hnr : r.nr = ROOT_INODE_NR) (hdir : RootDir sb r)
    (h : clearDirectoryEntry root nr s = .ok u t) : OuterKept sb s t := by
  obtain ⟨hstart, h16, -, h512⟩ := placed_numbers (placed_of_rootDir hm hdir)
  have hsize := hdir.size
  have hbytes : DIR_BYTES = 1048576 := rfl
  have hfirst : 512 * r.sectStart.toNat = dirByte sb := by
    rw [hdir.start]
    rfl
  obtain ⟨h₁, h₂, -⟩ := region_bytes hm
  rw [clearDirectoryEntry, run_get_bind] at h
  rw [hr, hstart, h16, h512, hdev, Int.toNat_natCast] at h
  obtain ⟨⟨found, deNr, deSize⟩, v, hscan, h⟩ := run_bind.mp h
  obtain ⟨_, _, hcheck, h⟩ := run_bind.mp h
  obtain ⟨hfound, rfl⟩ := run_check.mp hcheck
  obtain ⟨k, g, -, hk, -, -, -, -, -, hv⟩ :=
    scanSects_found (i := 0) (Nat.zero_add _) (Nat.zero_le _) rfl hscan hfound
  have hsector : OuterKept sb s v := by
    refine outer_disk (by rw [hv]) fun x hx => put_of_out ?_
    rw [Outer] at hx
    omega
  refine trans_of (OuterKept sb) hsector ?_
  split at h
  · obtain ⟨_, w, hmod, hw⟩ := run_bind.mp h
    obtain rfl := run_modify.mp hmod
    have hinode := updInode_self v (i := root) fun p => { p with
      fileSize := BitVec.ofInt 32 deSize }
    rw [show v.inodeTable root = r by rw [hv, hr]] at hinode
    refine outer_writeInode (s := v.updInode root fun p => { p with
      fileSize := BitVec.ofInt 32 deSize }) (n := 1) hm ?_ hinode hdev hnr
      (by decide) (by decide) hw
    rw [← hsb, hv]
    rfl
  · cases h
    exact refl_of (OuterKept sb) _

end Functions

end KosDiskRegions
