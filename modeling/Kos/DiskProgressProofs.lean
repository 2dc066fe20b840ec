import Kos.FileBytesProofs
import Kos.MapRunsProofs
import Kos.SurvivalProofs

/-! # Requests that succeed

    In a state that a run reaches.

    * A file is created when there are an inode number and sectors for it, and
      entries of the tables (`open_creates`);
    * a regular file that is not open is removed, and none of the assertions of
      `unlink.c` fails (`unlink_removes`). -/

namespace KosDiskProgress

open FlatMemory (Byte)
open Overlay
open BitMap (bit FirstClear)
open RefCount
open KosFs
open KosMkfs
open KosFileNames
open KosOpenFile
open KosUnlink
open KosRequests
open KosInodeArray (stored_of_made)
open KosInodeMap (allocInode_ok)
open KosSectorMap (sectorNr mapSize mapOf mapStart allocSectMapBit FirstRun)
open KosRootDirectory
open KosRefusals (numberOf getFileInodeNr_number run_map)
open KosTables
open KosRequestCounts
open KosDiskImage
open KosDiskSteps
open KosDiskRequests
open KosFileMaps
open KosMapRuns
open KosNewEntry (makeNewDirEntry_ok)
open KosSurvival (getFileInode_ok makeNewInode_ok)

/-- No descriptor is in use. -/
def Idle (s : Fs) : Prop := ∀ d, (s.fileDescTable d).inode = none

section Idle

variable {s : Fs} {i : Fin NR_INODE}

/-- Only the root inode is in use. -/
theorem idle_cnt (h : Counted s) (hidle : Idle s) (hi : i ≠ s.rootInode) :
    (s.inodeTable i).cnt = 0 := by
  have huses : (s.inodeTable i).cnt = held (refs s) i + atRoot s i :=
    h.exact.uses i
  have hheld : held (refs s) i = 0 := by
    refine Finset.sum_eq_zero fun d _ => if_neg ?_
    rw [show (refs s).target d = none from hidle d]
    exact (Option.some_ne_none i).symm
  rw [huses, hheld, atRoot, if_neg hi]
  rfl

/-- No process has a descriptor. -/
theorem idle_slots (h : Counted s) (hidle : Idle s) (p : Pid) (k : Fin NR_FILES) :
    s.fileDesc p.val k = none := by
  cases hd : s.fileDesc p.val k with
  | none => rfl
  | some d =>
      have hzero := (h.exact.free d).mp (hidle d)
      have hle := Finset.single_le_sum (s := Finset.univ)
        (f := fun x => if (refs s).slot x = some d then (1 : Int) else 0)
        (fun x _ => by split <;> decide) (Finset.mem_univ (p, k))
      rw [show ∑ x, (if (refs s).slot x = some d then (1 : Int) else 0) = 0 from hzero,
        if_pos (show (refs s).slot (p, k) = some d from hd)] at hle
      exact absurd hle (by decide)

theorem idle_freeInode (h : Counted s) (hidle : Idle s) : s.freeInode ≠ none := by
  intro hnone
  have hall := List.find?_eq_none.mp hnone
  have : Nontrivial (Fin NR_INODE) := ⟨⟨0, by decide⟩, ⟨1, by decide⟩, by decide⟩
  obtain ⟨i, hi⟩ := exists_ne s.rootInode
  exact hall i (List.mem_finRange i) (decide_eq_true (idle_cnt h hidle hi))

theorem idle_freeDesc (hidle : Idle s) : ∃ d, freeDesc s = some d := by
  cases hd : freeDesc s with
  | some d => exact ⟨d, rfl⟩
  | none =>
      have hall := List.find?_eq_none.mp hd ⟨0, by decide⟩ (List.mem_finRange _)
      rw [hidle] at hall
      exact absurd rfl hall

theorem idle_freeFd (h : Counted s) (hidle : Idle s) (p : Pid) :
    ∃ k, freeFd s p.val = some k := by
  cases hk : freeFd s p.val with
  | some k => exact ⟨k, rfl⟩
  | none =>
      have hall := List.find?_eq_none.mp hk ⟨0, by decide⟩ (List.mem_finRange _)
      rw [idle_slots h hidle] at hall
      exact absurd rfl hall

end Idle

/-! ## The functions -/

section Functions

variable {sb : SuperBlock} {s : Fs} {live : Finset Nat} {dev nr start : Int}
  {β : Nat} {path name : List Byte}

theorem writeInode_ok (sb : SuperBlock) {i : Fin NR_INODE}
    (hsb : s.superOf (s.inodeTable i).dev = some sb)
    (hst : Stored sb (s.inodeTable i).nr) : ∃ t, writeInode i s = .ok () t :=
  ⟨_, run_writeInode.mpr ⟨sb, hsb, hst, rfl⟩⟩

/-- The first sectors that are not in use are enough for a file. -/
structure HasRun (sb : SuperBlock) (m : Image) (β : Nat) : Prop where
  before : ∀ y < β, m.sectBit y = true
  clear : ∀ y, β ≤ y → y < β + NR_FILE_SECTS → m.sectBit y = false
  stop : β + NR_FILE_SECTS ≤ mapSize sb

theorem allocSects_ok (hfits : Fits sb) (hsb : s.superOf ROOT_DEV_NR = some sb)
    (h : HasRun sb (imageIn sb s) β) :
    ∃ t, allocSectMapBit ROOT_DEV_NR NR_FILE_SECTS s = .ok (sectorNr sb β) t := by
  have hm := hfits.made
  have hsmall := hfits.small
  have hsmap := hm.smap
  have hstop := h.stop
  have hsects : NR_FILE_SECTS = 2048 := rfl
  have hstart := mapStart_of_made hm
  have hsize : mapSize sb = 4096 * sb.nrSectMapSects.toNat := rfl
  have hbit : ∀ y < mapSize sb, bit (mapOf sb (s.disk ROOT_DEV_NR)) y =
      (imageIn sb s).sectBit y := by
    intro y hy
    show _ = (decide (y < mapSize sb) && _)
    rw [decide_eq_true hy, Bool.true_and]
  have haddr : ∀ k : Nat, k < sb.nrSectMapSects.toNat →
      Addressed (mapStart sb + k) := by
    intro k hk
    rw [hstart]
    exact ⟨by omega, by omega⟩
  have hfirst : FirstRun sb (s.disk ROOT_DEV_NR) 0 NR_FILE_SECTS β := by
    refine ⟨⟨Nat.zero_le β, by omega, ?_, fun y _ hy => ?_⟩,
      ⟨by rw [hstart]; decide, haddr _ (by omega), by omega⟩,
      sectorNr_ne hm (by omega), fun y h₁ h₂ => ?_, hstop, haddr _ (by omega)⟩
    · rw [hbit β (by omega)]
      exact h.clear β (Nat.le_refl β) (by omega)
    · rw [hbit y (by omega)]
      exact h.before y hy
    · rw [hbit y (by omega)]
      exact h.clear y h₁ h₂
  obtain ⟨t, ht, -⟩ := KosSectorMap.alloc_of_firstRun hsb (by decide) hfirst
  exact ⟨t, ht⟩

/-- The search of the directory ends. -/
theorem getFileInodeNr_ok (hr : Placed (s.inodeTable s.rootInode))
    (path : List Byte) :
    ∃ g, getFileInodeNr path s = .ok (numberOf s path) { s with fsbuf := g } := by
  cases hname : getFileName path with
  | none =>
      refine ⟨s.fsbuf, ?_⟩
      rw [getFileInodeNr, numberOf, hname]
      rfl
  | some name =>
      by_cases hempty : name.getD 0 0 = 0
      · refine ⟨s.fsbuf, ?_⟩
        rw [getFileInodeNr, numberOf, hname]
        dsimp only
        rw [run_get_bind, if_pos hempty, if_pos hempty]
        rfl
      · obtain ⟨g, hg⟩ := getFileInodeNr_run hr hname hempty
        rw [getFileInodeNr_number hg] at hg
        exact ⟨g, hg⟩

/-- **`create_file`** makes a file where there are a number and sectors. -/
theorem createFile_ok (hfits : Fits sb) (h : Inv sb live s)
    (hname : getFileName path = some name) (hfree : s.freeInode ≠ none)
    (hnumber : ∃ y < 4096, (imageIn sb s).inodeBit y = false)
    (hrun : HasRun sb (imageIn sb s) β) :
    ∃ i t, createFile path s = .ok (some i) t := by
  obtain ⟨hroot, -, -⟩ := root_facts h
  obtain ⟨r, hr⟩ : ∃ r, r = s.inodeTable s.rootInode := ⟨_, rfl⟩
  have hused := root_used h.counted
  rw [← hr] at hroot hused
  have hm := hfits.made
  have hbits := image_bits h.kept
  -- the number
  obtain ⟨nr, s₁, h₁⟩ := allocInode_ok h.super (by rw [hm.imap]; decide)
  have hnr : nr ≠ 0 := by
    rcases run_allocInodeMapBit h₁ with ⟨-, hset, -⟩ | ⟨b, -, -, hfirst, rfl, -⟩
    · obtain ⟨y, hy, hclear⟩ := hnumber
      have hbit : (decide (y < 4096) && bit _ y) = false := hclear
      rw [decide_eq_true hy, Bool.true_and] at hbit
      exact absurd (hbit.symm.trans (hset y (Nat.zero_le y) hy)) (by decide)
    · intro h0
      have hb0 : b = 0 := by omega
      have hbit : (decide (0 < 4096) && bit _ 0) = true := hbits.1
      rw [decide_eq_true (by omega), Bool.true_and] at hbit
      rw [hb0] at hfirst
      exact absurd (hbit.symm.trans hfirst.2.2.1) (by decide)
  obtain ⟨b, rfl, hb, -, hclear, hb₁⟩ := becomes_allocInode hm hnr h₁
  have hb1 : b ≠ 1 := by
    rintro rfl
    exact absurd (hbits.2.symm.trans hclear) (by decide)
  have hb0 : b ≠ 0 := fun h0 => hnr (by rw [h0]; rfl)
  -- the sectors
  have hrun₁ : HasRun sb (imageIn sb s₁) β := by
    rw [hb₁.image]
    exact ⟨hrun.before, hrun.clear, hrun.stop⟩
  have hsuper₁ := (superOf_congr hb₁.tables.supers).trans h.super
  obtain ⟨s₂, h₂⟩ := allocSects_ok hfits hsuper₁ hrun₁
  obtain ⟨_, -, -, -, -, hb₂⟩ := becomes_allocSects hm hsuper₁ (by decide) h₂
  have hs₂ := same_trans hb₁.tables hb₂.tables
  have hsuper₂ := (superOf_congr hs₂.supers).trans h.super
  -- the inode
  obtain ⟨i, s₃, h₃, -⟩ := makeNewInode_ok (sectorNr sb β) hnr hsuper₂
    (stored_of_made hm (by omega) (by omega))
    (Or.inr (by rw [freeInode_congr hs₂]; exact hfree))
  obtain ⟨hentry, hb₃⟩ := becomes_makeNewInode hm hsuper₂ (by omega) (by omega) h₃
  rw [cached_congr hs₂, freeInode_congr hs₂] at hentry
  have hs₃ := same_trans (same_updInode hs₂ i _) hb₃.tables
  have hi := entry_notRoot hroot hused hb1 hentry
  -- the entry
  have hroot₃ : s₃.inodeTable s.rootInode = r := by
    rw [hs₃.inodes]
    exact (Function.update_of_ne hi.symm ..).trans hroot.entry
  have hsuper₃ : s₃.superOf r.dev = some sb := by
    rw [hroot.dev]
    exact (superOf_congr hs₃.supers).trans h.super
  obtain ⟨t, h₄⟩ := makeNewDirEntry_ok name (s₃.inodeTable i).nr hroot₃ hsuper₃
    (by rw [hroot.nr]; exact stored_of_made hm (by decide) (by decide))
    (placed_of_rootDir hm hroot.dir)
  refine ⟨i, t, ?_⟩
  rw [createFile, hname]
  dsimp only
  rw [run_get_bind, hroot.entry, hroot.dev, run_bind_of h₁, run_bind_of h₂,
    run_bind_of h₃, run_get_bind, run_bind_of h₄]
  rfl

end Functions

/-! ## Creating -/

section Creating

variable {sb : SuperBlock} {s t v : Fs} {live : Finset Nat} {β : Nat} {p : Pid}
  {pathname name : List Byte} {flags : BitVec 32} {fd : Fin NR_FILES}
  {d : Fin NR_FILE_DESC} {i : Fin NR_INODE}

/-- The buffer has no part in the invariant. -/
theorem inv_fsbuf (h : Inv sb live s) (g : Nat → Byte) :
    Inv sb live { s with fsbuf := g } :=
  ⟨h.super, ⟨h.counted.exact, h.counted.distinct⟩, h.files.maps, h.files.listed,
    h.files.loaded.entry, h.files.loaded.root, h.files.loaded.pos⟩

/-- An inode that was made gets a descriptor. -/
theorem openInode_ok (p : Pid) (fd : Fin NR_FILES)
    (hregular : (v.inodeTable i).fileType = TYPE_REGULAR)
    (hd : freeDesc v = some d) (htrunc : flags &&& O_TRUNC = 0) :
    openInode p.val fd flags (some i) v =
      .ok (fd.val : Int) (connect v p.val fd d i flags) := by
  have hrun : truncInode flags (some i) v = .ok () v := by
    rw [truncInode, if_pos htrunc]
    rfl
  have hmod : (modify fun s => connect s p.val fd d i flags : FsM Unit) v =
      .ok () (connect v p.val fd d i flags) := rfl
  have htype : checkType i (connect v p.val fd d i flags) =
      .ok () (connect v p.val fd d i flags) := by
    have hinode : ((connect v p.val fd d i flags).inodeTable i).fileType =
        TYPE_REGULAR := hregular
    rw [checkType, run_get_bind, hinode, if_neg (by decide), if_neg (by decide)]
    exact run_check_of rfl
  rw [openInode, run_bind_of hrun, run_get_bind, hd]
  dsimp only
  rw [run_bind_of hmod, run_bind_of htype]
  rfl

/-- A descriptor that is the only one can be closed. -/
theorem close_ok (p : Pid) (fd : Fin NR_FILES) (d : Fin NR_FILE_DESC)
    (flags : BitVec 32) (hcnt : 0 < (v.inodeTable i).cnt) :
    ∃ u, doClose p.val (fd.val : Int) (connect v p.val fd d i flags) = .ok 0 u := by
  obtain ⟨t, ht⟩ : ∃ t, t = connect v p.val fd d i flags := ⟨_, rfl⟩
  have hslot : t.fileDesc p.val fd = some d := by
    rw [ht]
    show Function.update v.fileDesc p.val _ p.val fd = _
    rw [Function.update_self, Function.update_self]
  have hdesc : t.fileDescTable =
      Function.update v.fileDescTable d ⟨flags, 0, 1, some i⟩ := by
    rw [ht]
    rfl
  have hput : putInode i t = .ok () (lessUsed i t) := by
    have hcnt' : 0 < (t.inodeTable i).cnt := by
      rw [ht]
      exact hcnt
    rw [putInode, run_get_bind, run_bind_of (run_check_of hcnt')]
    rfl
  rw [← ht]
  refine ⟨{ (lessUsed i t).updDesc d dropDesc with
    fileDesc := Function.update t.fileDesc p.val
      (Function.update (t.fileDesc p.val) fd none) }, ?_⟩
  rw [doClose, run_bind_of (KosFileBytes.run_fdSlot fd), run_get_bind, hslot]
  dsimp only
  rw [hdesc, Function.update_self]
  dsimp only
  rw [run_bind_of hput]
  rfl

/-- **A FILE IS CREATED**, of a name that has none, when there are an inode number
    and sectors for it. -/
theorem open_creates {p : Pid} (flags : BitVec 32) (hfits : Fits sb)
    (h : Inv sb live s) (hfd : freeFd s p.val = some fd) (hfree : s.freeInode ≠ none)
    (hd : freeDesc s = some d) (hpath : pathname.length < MAX_PATH)
    (hcreat : flags &&& O_CREAT ≠ 0) (htrunc : flags &&& O_TRUNC = 0)
    (hname : getFileName (pathname.takeWhile (· ≠ 0)) = some name)
    (hnr : numberOf s (pathname.takeWhile (· ≠ 0)) = INVALID_INODE)
    (hnumber : ∃ y < 4096, (imageIn sb s).inodeBit y = false)
    (hrun : HasRun sb (imageIn sb s) β) :
    ∃ i v, doOpen p.val pathname flags s =
        .ok (fd.val : Int) (connect v p.val fd d i flags) ∧
      ∃ nr start, v.inodeTable i = newInode ROOT_DEV_NR nr start := by
  obtain ⟨hroot, -, -⟩ := root_facts h
  have hdir : DIR_BYTES = 1048576 := rfl
  obtain ⟨g, hg⟩ := getFileInodeNr_ok (placed_of_rootDir hfits.made hroot.dir)
    (pathname.takeWhile (· ≠ 0))
  have hg' := inv_fsbuf h g
  obtain ⟨hroot', -, hfew⟩ := root_facts hg'
  obtain ⟨i, v, hnew⟩ := createFile_ok hfits hg' hname hfree hnumber hrun
  have hfind : findInode (pathname.takeWhile (· ≠ 0)) flags s =
      .ok (some (some i)) v := by
    rw [findInode, run_bind_of hg, if_pos hnr, if_pos hcreat]
    exact run_map.mpr ⟨some i, hnew, rfl⟩
  obtain ⟨name', b, β', k, free, e, -, hroom, -, -, hv, -⟩ := becomes_createFile
    hfits.made hg'.super hroot' (by omega) (root_used hg'.counted)
    (image_bits hg'.kept) hnew
  have hvi : v.inodeTable i = newInode ROOT_DEV_NR b (sectorNr sb β') := by
    rw [hv.tables.inodes]
    exact (Function.update_of_ne hroom.notRoot ..).trans (updInode_self _ _)
  have hdv : freeDesc v = some d := by
    rw [freeDesc, show v.fileDescTable = s.fileDescTable from hv.tables.descs]
    exact hd
  refine ⟨i, v, ?_, _, _, hvi⟩
  rw [doOpen, run_bind_of (run_check_of hpath), run_get_bind, hfd]
  dsimp only
  rw [run_bind_of hfind]
  exact openInode_ok p fd (by rw [hvi]; rfl) hdv htrunc

end Creating

/-! ## Removing -/

section Removing

variable {sb : SuperBlock} {s t v : Fs} {live : Finset Nat} {n : Nat}
  {root i : Fin NR_INODE} {p r : Inode} {nr : Int} {pathname : List Byte}

theorem clearInode_ok (hn : n < 4096) (hbit : (imageIn sb s).inodeBit n = true) :
    ∃ t, clearInodeMapBit ROOT_DEV_NR n s = .ok () t := by
  have haddr : Addressed 2 := by decide
  obtain ⟨c, hc⟩ : ∃ c, c = put s.fsbuf 0 (512 * 1)
    (drop (s.disk ROOT_DEV_NR) (512 * (2 : Int).toNat)) := ⟨_, rfl⟩
  have hrd : rdSects ROOT_DEV_NR 2 1 s = .ok () { s with fsbuf := c } :=
    run_rdSects.mpr ⟨haddr, by rw [hc]⟩
  have hset : (c (n / 8)).getLsbD (n % 8) = true := by
    rw [hc, put_of_in (by omega)]
    exact (Bool.and_eq_true_iff.mp hbit).2
  have hclear : clearBit (n / 8) (n % 8) { s with fsbuf := c } = .ok () { s with
      fsbuf := Function.update c (n / 8)
        (c (n / 8) &&& ~~~((1 : Byte) <<< (n % 8))) } := by
    rw [clearBit, run_get_bind, run_bind_of (run_check_of hset)]
    rfl
  have hlt : ((n : Nat) : Int).tdiv 8 < 512 := by
    rw [Int.tdiv_eq_ediv_of_nonneg (by omega)]
    omega
  rw [clearInodeMapBit, run_bind_of (run_check_of hlt), run_bind_of hrd,
    if_neg (by omega), Int.toNat_natCast, run_bind_of hclear]
  exact ⟨_, run_wrSects.mpr ⟨haddr, rfl⟩⟩

theorem clearFields_ok (hm : Made sb) (hsb : s.superOf ROOT_DEV_NR = some sb)
    (hp : s.inodeTable i = p) (hdev : p.dev = ROOT_DEV_NR) (hnr : p.nr = n)
    (h1 : 1 ≤ n) (h2 : n ≤ 4096) (hcnt : 0 < p.cnt) :
    ∃ t, clearInodeFields i s = .ok () t := by
  obtain ⟨w, hw⟩ : ∃ w, w = s.updInode i emptied := ⟨_, rfl⟩
  have hinode : w.inodeTable i = emptied p := by
    rw [hw, ← hp]
    exact updInode_self s emptied
  have hst : Stored sb p.nr := by
    rw [hnr]
    exact stored_of_made hm h1 h2
  obtain ⟨t, hwrite⟩ := writeInode_ok sb (s := w) (i := i)
    (by rw [hinode, show (emptied p).dev = p.dev from rfl, hdev, hw]; exact hsb)
    (by rw [hinode]; exact hst)
  obtain ⟨htables, -⟩ := becomes_writeInode hm (by rw [hw]; exact hsb) hinode hdev hnr
    h1 h2 hwrite
  have hput : putInode i t = .ok () (lessUsed i t) := by
    have hcnt' : 0 < (t.inodeTable i).cnt := by
      rw [htables.inodes, hinode]
      exact hcnt
    rw [putInode, run_get_bind, run_bind_of (run_check_of hcnt')]
    rfl
  have hmod : (modify fun s => s.updInode i fun p => { p with
      fileType := 0, fileSize := 0, sectStart := 0, nrSects := 0 } : FsM Unit) s =
      .ok () w := by
    rw [hw]
    rfl
  rw [clearInodeFields, run_bind_of hmod, run_bind_of hwrite]
  exact ⟨_, hput⟩

/-- The entry of a number that is there is cleared. -/
theorem clearEntry_ok (nr : Int) (hm : Made sb) (hsb : s.superOf ROOT_DEV_NR = some sb)
    (hr : AtRoot sb s root r)
    (h : ∃ k < r.fileSize.toNat / 16, numAt (imageIn sb s).dir k = nr) :
    ∃ t, clearDirectoryEntry root nr s = .ok () t := by
  have hplaced := placed_of_rootDir hm hr.dir
  obtain ⟨hstart, h16, -, h512⟩ := placed_numbers hplaced
  have hsize := hr.dir.size
  have hdir : 512 * r.sectStart.toNat = dirByte sb := by
    rw [hr.dir.start]
    rfl
  have hbytes : DIR_BYTES = 1048576 := rfl
  obtain ⟨k, hk, hnum⟩ := h
  rw [numAt_dir (by omega), ← hdir] at hnum
  rw [Placed] at hplaced
  obtain ⟨⟨found, deNr, deSize⟩, v, hscan, hfound⟩ := scanSects_ok
    ROOT_DEV_NR (E := r.fileSize.toNat / 16) hplaced (by omega) (i := 0)
    (Nat.zero_add _) rfl ⟨k, Nat.zero_le k, hk, hnum⟩
  obtain ⟨j, g, -, -, -, -, -, -, -, hv⟩ :=
    scanSects_found (i := 0) (Nat.zero_add _) (Nat.zero_le _) rfl hscan hfound
  have hcheck : check (found = true) v = .ok () v := run_check_of hfound
  have hwrite : ∃ t, writeInode root (v.updInode root fun p => { p with
      fileSize := BitVec.ofInt 32 deSize }) = .ok () t := by
    have hroot : (v.updInode root fun p => { p with
        fileSize := BitVec.ofInt 32 deSize }).inodeTable root =
        { r with fileSize := BitVec.ofInt 32 deSize } := by
      rw [updInode_self, hv, ← hr.entry]
    refine writeInode_ok sb ?_ ?_
    · rw [hroot, show Inode.dev { r with fileSize := BitVec.ofInt 32 deSize } = r.dev
        from rfl, hr.dev, hv]
      exact hsb
    · rw [hroot, show Inode.nr { r with fileSize := BitVec.ofInt 32 deSize } = r.nr
        from rfl, hr.nr]
      exact stored_of_made hm (by decide) (by decide)
  have hscan' : scanSects ROOT_DEV_NR r.sectStart.toNat nr
      (r.fileSize.toNat / 16 : Nat) ((r.fileSize.toNat + 512) / 512) 0 0 0 s =
      .ok (found, deNr, deSize) v := hscan
  rw [clearDirectoryEntry, run_get_bind, hr.entry, hstart, h16, h512, hr.dev,
    Int.toNat_natCast, run_bind_of hscan', run_bind_of hcheck]
  by_cases hlast : deNr = (r.fileSize.toNat / 16 : Nat)
  · obtain ⟨t, ht⟩ := hwrite
    rw [if_pos hlast]
    exact ⟨t, ht⟩
  · rw [if_neg hlast]
    exact ⟨v, rfl⟩

/-- **A FILE IS REMOVED**, of a name that is there, when it is a regular file whose
    inode is not in use. -/
theorem unlink_removes (hfits : Fits sb) (h : Inv sb live s)
    (hfree : s.freeInode ≠ none) (hnone : s.cached ROOT_DEV_NR n = none)
    (hpath : pathname.length < MAX_PATH)
    (hnr : numberOf s (pathname.takeWhile (· ≠ 0)) = n) (hn : 1 < n)
    (hlive : n ∈ live) (htype : ((imageIn sb s).inode n).fileType = TYPE_REGULAR)
    (hentry : ∃ k < entries (imageIn sb s), numAt (imageIn sb s).dir k = n) :
    ∃ t, doUnlink pathname s = .ok 0 t := by
  obtain ⟨path, hpath'⟩ : ∃ path, path = pathname.takeWhile (· ≠ 0) := ⟨_, rfl⟩
  rw [← hpath'] at hnr
  obtain ⟨hroot, -, -⟩ := root_facts h
  obtain ⟨r, hr⟩ : ∃ r, r = s.inodeTable s.rootInode := ⟨_, rfl⟩
  have hused := root_used h.counted
  rw [← hr] at hroot hused
  have hm := hfits.made
  have hsmall := hfits.small
  have hrange := h.files.maps.range n hlive
  have hn0 : (n : Int) ≠ 0 := by omega
  obtain ⟨name, hname⟩ : ∃ name, getFileName path = some name := by
    cases hname : getFileName path with
    | none =>
        rw [numberOf, hname] at hnr
        exact absurd hnr.symm hn0
    | some name => exact ⟨name, rfl⟩
  have hslash : path ≠ [slash] := by
    rintro hroot'
    have hone : numberOf s [slash] = (s.inodeTable s.rootInode).nr := rfl
    rw [hroot', hone, h.files.loaded.root, show ROOT_INODE_NR = 1 from rfl] at hnr
    omega
  -- the inode
  obtain ⟨g, hg⟩ := getFileInodeNr_ok
    (hroot.entry.symm ▸ placed_of_rootDir hm hroot.dir) path
  have hg' := inv_fsbuf h g
  obtain ⟨i, -, v, hget, -⟩ := getFileInode_ok (s := { s with fsbuf := g }) hn0 h.super
    (stored_of_made hm hrange.1 (by omega))
    (Or.inr hfree)
  obtain ⟨j, w, hj, hobt, hv⟩ := becomes_getFileInode sb hn0 hget
  cases hj
  obtain ⟨hdev, hinr, hstored⟩ := obtained_inode hg'.super hrange.1 (by omega)
    (fun j hc => cached_stored hg'.kept hc) hobt
  have hcnt : (w.inodeTable i).cnt = 1 := by
    cases hobt with
    | cached hc =>
        rw [show Fs.cached { s with fsbuf := g } ROOT_DEV_NR n =
          s.cached ROOT_DEV_NR n from rfl, hnone] at hc
        cases hc
    | loaded _ _ _ _ =>
        rw [updInode_self]
        rfl
  obtain ⟨p, hp⟩ : ∃ p, p = w.inodeTable i := ⟨_, rfl⟩
  rw [← hp] at hdev hinr hstored hcnt
  have hv₀ : v.inodeTable i = p := (congrFun hv.tables.inodes i).trans hp.symm
  have htype' : p.fileType = TYPE_REGULAR := by
    rw [← htype]
    exact (congrArg Inode.fileType hstored).symm
  have hi : i ≠ s.rootInode := by
    refine entry_notRoot (s := { s with fsbuf := g }) ⟨hroot.entry, hroot.dev,
      hroot.nr, hroot.dir, hroot.stored⟩ hused (b := n) (by omega) ?_
    cases hobt with
    | cached hc => exact Or.inl hc
    | loaded _ hnone hfree _ => exact Or.inr ⟨hnone, hfree⟩
  have hsuper : ∀ {x : Fs}, SameTables w x → x.superOf ROOT_DEV_NR = some sb := by
    intro x hx
    refine (superOf_congr (s := s) (hx.supers.trans ?_)).trans h.super
    cases hobt <;> rfl
  have hf := hasFile_of_live hfits h.files.maps hlive htype
  have hbit := hf.bit
  -- its number
  obtain ⟨v₁, h₁⟩ := clearInode_ok (s := v) hrange.2 (by rw [hv.image]; exact hbit)
  obtain ⟨m, hmn, -, -, hb₁⟩ := becomes_clearInode hm h₁
  rw [← Int.ofNat_inj.mp hmn, hv.image] at hb₁
  have hs₁ := same_trans hv.tables hb₁.tables
  have hp₁ : v₁.inodeTable i = p := (congrFun hs₁.inodes i).trans hp.symm
  -- its sectors
  have hend := hf.sectsEnd
  obtain ⟨v₂, h₂, -, hb₂⟩ := becomes_clearSects (n := NR_FILE_SECTS)
    (b := startBit sb ((imageIn sb s).inode n)) hm (hp₁ ▸ hdev) (hsuper hs₁)
    (by decide) (by decide) hend
    (by rw [show NR_FILE_SECTS = 2048 from rfl] at hend; omega)
    (by rw [hp₁, ← hf.start]; exact (congrArg Inode.sectStart hstored).symm)
    (by rw [hp₁, ← hf.sects]; exact (congrArg Inode.nrSects hstored).symm)
    (by rw [hb₁.image]; exact hf.sectsSet)
  have hs₂ := same_trans hs₁ hb₂.tables
  have hp₂ : v₂.inodeTable i = p := (congrFun hs₂.inodes i).trans hp.symm
  -- its fields
  obtain ⟨v₃, h₃⟩ := clearFields_ok hm (hsuper hs₂) hp₂ hdev hinr (by omega)
    (by omega) (by omega)
  have hb₃ := becomes_clearFields hm (hsuper hs₂) hp₂ hdev hinr (by omega) (by omega) h₃
  have hs₃ := same_trans (same_updInode (same_updInode hs₂ i emptied) i
    fun p => { p with cnt := p.cnt - 1 }) hb₃.tables
  have himage₃ := hb₃.image
  rw [hb₂.image, hb₁.image] at himage₃
  have hroot₃ : AtRoot sb v₃ s.rootInode r := by
    refine ⟨?_, hroot.dev, hroot.nr, hroot.dir, ?_⟩
    · rw [hs₃.inodes]
      refine (Function.update_of_ne hi.symm ..).trans ?_
      refine (Function.update_of_ne hi.symm ..).trans ?_
      rw [← hroot.entry]
      cases hobt <;> exact Function.update_of_ne hi.symm ..
    · rw [himage₃]
      exact (Function.update_of_ne (by omega) ..).trans hroot.stored
  -- its entry
  obtain ⟨t, h₄⟩ := clearEntry_ok n hm
    ((superOf_congr (s := v₂) hb₃.tables.supers).trans (hsuper hs₂)) hroot₃ (by
      obtain ⟨k, hk, hnum⟩ := hentry
      rw [entries, hroot.stored] at hk
      refine ⟨k, hk, ?_⟩
      rw [himage₃]
      exact hnum)
  refine ⟨t, ?_⟩
  rw [doUnlink, run_bind_of (run_check_of hpath), ← hpath', if_neg hslash,
    run_bind_of hg, hnr, if_neg (show ¬ (n : Int) = INVALID_INODE from hn0),
    unlinkInode, hname]
  dsimp only
  rw [run_get_bind]
  dsimp only
  rw [hroot.entry, hroot.dev, run_bind_of hget]
  dsimp only
  rw [run_get_bind, hv₀, if_neg (fun hne => hne htype'), if_neg (by omega), hdev,
    run_bind_of h₁, run_bind_of h₂, run_bind_of h₃, run_bind_of h₄]
  rfl

end Removing

end KosDiskProgress
