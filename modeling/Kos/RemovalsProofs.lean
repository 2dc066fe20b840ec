import Kos.StoreRunsProofs

/-! # Removals

    What FS_UNLINK does in the states that the runs reach.

    * It always answers: a regular file that nobody has open is removed, and
      every other path is refused (`unlink_answers`);
    * `clear_directory_entry` counts the used entries in front of the last one
      and makes that the size of the directory.  So when the last file is
      removed, the search finds the others whose entries are in front of the new
      end and none of those behind; all of them stay allocated
      (`number_unlinked`). -/

namespace KosRemovals

open FlatMemory (Byte)
open Overlay
open TraceRefinement
open KosFs
open KosMkfs
open KosFileNames
open KosOpenFile
open KosUnlink
open KosRootDirectory
open KosRefusals (numberOf)
open KosInodeArray (stored_of_made)
open KosTables
open KosRequestCounts
open KosDiskImage
open KosDiskSteps
open KosDiskRequests
open KosFileMaps
open KosMapRuns (Inv FileGone root_facts inv_unlink cached_stored)
open KosBounds (blankFs)
open KosInitFs (entryBytes tarName ttyName)
open KosNewImage
open KosDiskProgress
open KosSurvival (getFileInode_ok)
open KosOpenFiles
open KosDirectoryMap
open KosDirectorySearch
open KosFileStore
open KosStoreSteps
open KosStoreRuns

/-! ## What is removed -/

/-- The path has a regular file, and no descriptor is for it. -/
def Removable (sb : SuperBlock) (s : Fs) (path : List Byte) : Prop :=
  ∃ n : Nat, 1 < n ∧ numberOf s path = n ∧
    ((imageIn sb s).inode n).fileType = TYPE_REGULAR ∧ Unopened s path

section Answers

variable {sb : SuperBlock} {s : Fs} {a : Store} {live : Finset Nat} {n : Nat}
  {path pathname : List Byte}

/-- A file that is not open has no inode in the table. -/
theorem unopened_iff (h : Inv sb live s) (hn : 1 < n) (hnr : numberOf s path = n) :
    Unopened s path ↔ s.cached ROOT_DEV_NR n = none := by
  obtain ⟨hroot, -, -⟩ := root_facts h
  constructor
  · intro hun
    by_contra hsome
    obtain ⟨i, hc⟩ := Option.ne_none_iff_exists'.mp hsome
    obtain ⟨hused, hkey⟩ := cached_some hc
    have hi : i ≠ s.rootInode := by
      rintro rfl
      have hone := (Prod.mk.inj hkey).2
      rw [h.files.loaded.root, show ROOT_INODE_NR = 1 from rfl] at hone
      omega
    have huses : (s.inodeTable i).cnt = RefCount.held (refs s) i + atRoot s i :=
      h.counted.exact.uses i
    rw [atRoot, if_neg hi, Int.add_zero] at huses
    have hheld : RefCount.held (refs s) i ≠ 0 := fun hzero =>
      hused (huses.trans hzero)
    obtain ⟨d, -, hd⟩ := Finset.exists_ne_zero_of_sum_ne_zero hheld
    have htarget : (s.fileDescTable d).inode = some i := by
      by_contra hne
      exact hd (if_neg hne)
    refine hun d i htarget ?_
    rw [hroot.dev, hnr]
    exact hkey
  · intro hnone d i hd hkey
    rw [hroot.dev, hnr] at hkey
    have hused : 0 < (s.inodeTable i).cnt :=
      RefCount.exact_used h.counted.exact (atRoot_nonneg s) hd
    exact cached_none hnone i (show (s.inodeTable i).cnt ≠ 0 by omega) hkey

/-- A path that has a number has that of a live inode. -/
theorem number_live (hfits : Fits sb) (hs : StandsFor sb s a) (hnul : 0 ∉ path)
    (hnr : numberOf s path ≠ INVALID_INODE) : ∃ n ∈ a.live, numberOf s path = n := by
  rw [numberOf_store hfits hs hnul] at hnr ⊢
  cases hn : a.numberOf path with
  | none =>
      rw [hn] at hnr
      exact absurd rfl hnr
  | some n => exact ⟨n, (live_of_number hs hn).1, rfl⟩

/-- What FS_UNLINK answers in a state that stands for a store. -/
theorem unlink_decides (hfits : Fits sb) (hs : StandsFor sb s a)
    (hpath : pathname.length < MAX_PATH) (hfree : s.freeInode ≠ none) :
    ∃ ret t, doUnlink pathname s = .ok ret t ∧
      (ret = 0 ∧ Removable sb s (pathname.takeWhile (· ≠ 0)) ∨
        ret = -1 ∧ ¬ Removable sb s (pathname.takeWhile (· ≠ 0))) := by
  have hnul := path_chars pathname
  obtain ⟨path, hpath'⟩ : ∃ path, path = pathname.takeWhile (· ≠ 0) := ⟨_, rfl⟩
  rw [← hpath'] at hnul ⊢
  obtain ⟨hroot, -, -⟩ := root_facts hs.inv
  have hstart : ∀ {ret t}, (if path = [slash] then pure (-1) else do
      let nr ← getFileInodeNr path
      if nr = INVALID_INODE then pure (-1) else unlinkInode path nr : FsM Int) s =
      .ok ret t → doUnlink pathname s = .ok ret t := by
    intro ret t h
    rw [doUnlink, run_bind_of (run_check_of hpath), ← hpath']
    exact h
  -- paths without a file
  by_cases hslash : path = [slash]
  · refine ⟨-1, s, hstart (by rw [if_pos hslash]; rfl), Or.inr ⟨rfl, ?_⟩⟩
    rintro ⟨n, hn, hnr, -⟩
    have hone : numberOf s [slash] = (s.inodeTable s.rootInode).nr := rfl
    rw [hslash, hone, hs.inv.files.loaded.root, show ROOT_INODE_NR = 1 from rfl] at hnr
    omega
  obtain ⟨g, hg⟩ := getFileInodeNr_ok (placed_of_rootDir hfits.made hroot.dir) path
  by_cases hnone : numberOf s path = INVALID_INODE
  · refine ⟨-1, { s with fsbuf := g }, hstart ?_, Or.inr ⟨rfl, ?_⟩⟩
    · rw [if_neg hslash, run_bind_of hg, if_pos hnone]
      rfl
    · rintro ⟨n, hn, hnr, -⟩
      rw [hnr, show INVALID_INODE = 0 from rfl] at hnone
      omega
  -- the file is open, or is one that is not removed
  obtain ⟨n, hlive, hnr⟩ := number_live hfits hs hnul hnone
  have hrange := hs.inv.files.maps.range n hlive
  have hg' := inv_fsbuf hs.inv g
  obtain ⟨i, -, v, hget, -⟩ := getFileInode_ok (s := { s with fsbuf := g })
    (show (n : Int) ≠ 0 by omega) hg'.super
    (stored_of_made hfits.made hrange.1 (by omega)) (Or.inr hfree)
  obtain ⟨j, w, hj, hobt, hv⟩ := becomes_getFileInode sb (by omega) hget
  cases hj
  obtain ⟨hdev, hinr, hstored⟩ := obtained_inode hg'.super hrange.1 (by omega)
    (fun j hc => cached_stored hg'.kept hc) hobt
  obtain ⟨p, hp⟩ : ∃ p, p = v.inodeTable i := ⟨_, rfl⟩
  rw [← hv.tables.inodes, ← hp] at hdev hinr hstored
  have htype : ((imageIn sb s).inode n).fileType = p.fileType :=
    (congrArg Inode.fileType hstored).trans rfl
  have hn1 : p.fileType = TYPE_REGULAR → 1 < n := fun hreg => by
    have hne := (regular_inData (hs.inv.files.maps.kind n hlive)
      (htype.trans hreg)).1
    omega
  by_cases hrem : p.fileType = TYPE_REGULAR ∧ s.cached ROOT_DEV_NR n = none
  · obtain ⟨hreg, hcached⟩ := hrem
    obtain ⟨name, -, -, hfile⟩ := name_of_number hfits hs.inv hs.names hnul hnr
      (hn1 hreg)
    obtain ⟨k, hk, hslot⟩ := (hs.names.table.holds name n).mp hfile
    obtain ⟨hused, -, hkn⟩ := slotAt_some hslot
    obtain ⟨m, -, hm⟩ := hs.inv.files.listed.live k hk hused
    obtain ⟨t, ht⟩ := unlink_removes hfits hs.inv hfree hcached hpath
      (by rw [← hpath']; exact hnr) (hn1 hreg) hlive (htype.trans hreg)
      ⟨k, hk, by omega⟩
    exact ⟨0, t, ht, Or.inl ⟨rfl, n, hn1 hreg, hnr, htype.trans hreg,
      (unopened_iff hs.inv (hn1 hreg) hnr).mpr hcached⟩⟩
  · obtain ⟨name, hname⟩ : ∃ name, getFileName path = some name := by
      cases hname : getFileName path with
      | none =>
          rw [numberOf, hname] at hnone
          exact absurd rfl hnone
      | some name => exact ⟨name, rfl⟩
    refine ⟨-1, v, hstart ?_, Or.inr ⟨rfl, ?_⟩⟩
    · rw [if_neg hslash, run_bind_of hg, if_neg hnone, unlinkInode, hname]
      dsimp only
      rw [run_get_bind, hroot.dev, hnr, run_bind_of hget]
      dsimp only
      rw [run_get_bind, ← hp]
      by_cases hreg : p.fileType = TYPE_REGULAR
      · have hmore : 1 < p.cnt := by
          cases hobt with
          | cached hc =>
              have hused := (cached_some hc).1
              have hnonneg := RefCount.exact_uses_nonneg hs.inv.counted.exact
                (atRoot_nonneg s) i
              rw [hp, hv.tables.inodes, updInode_self]
              show 1 < (s.inodeTable i).cnt + 1
              have hcnt : (s.inodeTable i).cnt ≠ 0 := hused
              have hcnt' : 0 ≤ (s.inodeTable i).cnt := hnonneg
              omega
          | loaded _ hc _ _ => exact absurd ⟨hreg, hc⟩ hrem
        rw [if_neg (not_not.mpr hreg), if_pos hmore]
        rfl
      · rw [if_pos hreg]
        rfl
    · rintro ⟨m, hm, hmn, hreg, hun⟩
      obtain rfl : n = m := Int.ofNat_inj.mp (hnr.symm.trans hmn)
      exact hrem ⟨htype.symm.trans hreg, (unopened_iff hs.inv hm hnr).mp hun⟩

/-- **FS_UNLINK ANSWERS.** In every state that a run reaches it answers every
    path, no assertion fails, and it removes exactly the regular files that nobody
    has open. -/
theorem unlink_answers {sectCnt : BitVec 32} {ls : List Label}
    (hcond : 2048 ≤ sectCnt.toNat ∧ sectCnt.toNat < 124768256)
    (hreach : Run (fileSystem sectCnt) ls s) (hpath : pathname.length < MAX_PATH)
    (hfree : s.freeInode ≠ none) :
    ∃ ret t, doUnlink pathname s = .ok ret t ∧
      (ret = 0 ∧ Removable (superBlock sectCnt ROOT_DEV_NR) s
          (pathname.takeWhile (· ≠ 0)) ∨
        ret = -1 ∧ ¬ Removable (superBlock sectCnt ROOT_DEV_NR) s
          (pathname.takeWhile (· ≠ 0))) := by
  obtain ⟨a, -, hfits, hs, -⟩ := run_simulated (store_simulates hcond) hreach
  exact unlink_decides hfits hs hpath hfree

/-- `cmd.tar` can be removed from a new file system. -/
theorem tar_removable (hfits : Fits sb) (hs : StandsFor sb s a) (hfirst : First a)
    (himage : NewImage sb (imageIn sb s)) :
    numberOf s tarName = 5 ∧ Removable sb s tarName := by
  have hnumber : numberOf s tarName = 5 := by
    rw [numberOf_store hfits hs (by decide), Store.numberOf, hfirst.files]
    decide +kernel
  refine ⟨hnumber, 5, by decide, hnumber, ?_, fun d i hd => ?_⟩
  · rw [show 5 = 4 + 1 from rfl, himage.inode 4 (show 4 < 5 by decide)]
    rfl
  · rw [first_idle hs hfirst d] at hd
    cases hd

/-- It is removed. -/
theorem unlink_answers_tar : ∃ s t : Fs, Boot 40960 s ∧
    doUnlink tarName s = .ok 0 t := by
  have hcond : 2048 ≤ (40960 : BitVec 32).toNat ∧
      (40960 : BitVec 32).toNat < 124768256 := by decide
  obtain ⟨s, hboot, himage⟩ := boot_blank
  obtain ⟨hfits, a, hfirst, hs⟩ := boot_stands hcond hboot
  have hpath : tarName.takeWhile (· ≠ 0) = tarName := by decide
  obtain ⟨ret, t, hunlink, hanswer⟩ := unlink_answers hcond (.start hboot)
    (show tarName.length < 128 by decide)
    (idle_freeInode hs.inv.counted (first_idle hs hfirst))
  rw [hpath] at hanswer
  obtain ⟨rfl, -⟩ := hanswer.resolve_right fun h =>
    h.2 (tar_removable hfits hs hfirst himage).2
  exact ⟨s, t, hboot, hunlink⟩

end Answers

/-! ## What is still found -/

section Hidden

variable {sb : SuperBlock} {s t : Fs} {live : Finset Nat} {m n j k : Nat}
  {files : List Byte → Option Nat} {path pathname name : List Byte}

/-- How many entries the search looks at when the entry `k` has been cleared. -/
def lookedWithout (sb : SuperBlock) (s : Fs) (k : Nat) : Nat :=
  looked (sizeWithout (imageIn sb s).dir ((imageIn sb s).inode 1).fileSize k).toNat

/-- The number that a path still has when the entry of another has been cleared. -/
theorem number_gone (hfits : Fits sb) (h : Inv sb live s) (ht : Inv sb (live.erase n) t)
    (hnames : Names (imageIn sb s) files) (hnul : 0 ∉ path)
    (hname : getFileName path = some name) (hne : name ≠ [])
    (hfile : files name = some m) (hk : numAt (imageIn sb s).dir k = n)
    (hlast : k < entries (imageIn sb s)) (hj : numAt (imageIn sb s).dir j = m)
    (hin : j < entries (imageIn sb s)) (hmn : m ≠ n) (hn : n ≠ 0)
    (hgone : FileGone sb s t n) :
    numberOf t path = if j < lookedWithout sb s k then (m : Int) else INVALID_INODE := by
  obtain ⟨β, k', p, hk', hnum, himage, -⟩ := hgone
  obtain ⟨hroot, -, -⟩ := root_facts h
  rw [← entries_set hroot.stored] at hk'
  obtain ⟨hnul', hlen⟩ := name_chars hnul hname
  obtain ⟨-, hm0⟩ := live_of_file h hnames hfile
  have hkk : k' = k := by
    refine h.files.listed.once k' hk' k hlast (hnum.trans hk.symm) ?_
    rw [hnum]
    omega
  subst hkk
  -- the entry of the name
  obtain ⟨i, hi, hslot⟩ := (hnames.table.holds name m).mp hfile
  have hij : i = j := by
    obtain ⟨hused, -, hmi⟩ := slotAt_some hslot
    obtain ⟨a, -, ha⟩ := h.files.listed.live i hi hused
    refine h.files.listed.once i hi j hin ?_ hused
    rw [hj]
    omega
  subst hij
  have hjk : i ≠ k' := by
    rintro rfl
    rw [hj] at hk
    exact hmn (Int.ofNat_inj.mp hk)
  obtain ⟨u, hu⟩ := search_image hfits ht hnul hname hne
  have hsize : (imageIn sb t).inode 1 = asStored 1
      { s.inodeTable s.rootInode with
        fileSize := sizeWithout (imageIn sb s).dir
          (s.inodeTable s.rootInode).fileSize k' } := by
    rw [himage]
    exact setInode_same ..
  have hroot1 : ((imageIn sb s).inode 1).fileSize =
      (s.inodeTable s.rootInode).fileSize := by
    rw [hroot.stored]
    rfl
  rw [hsize, himage, withoutFile_dir, search_cleared hnames h.files.listed hnul' hne
    hlen hi hjk hslot] at hu
  rw [← KosRefusals.getFileInodeNr_number hu, lookedWithout, hroot1]
  rfl

/-- **THE FILES THAT A REMOVAL LEAVES.** In every state that a run reaches, the
    entry `k` of a file is cleared when it is removed.  Another file, with the
    number `m` in the entry `j`, is found afterwards exactly if `j` is in front of
    the end of the search, and is allocated whether or not it is found. -/
theorem number_unlinked {sectCnt : BitVec 32} {ls : List Label} {ret : Int}
    (hcond : 2048 ≤ sectCnt.toNat ∧ sectCnt.toNat < 124768256)
    (hreach : Run (fileSystem sectCnt) ls s) (hret : ret ≠ -1)
    (hrun : doUnlink pathname s = .ok ret t)
    (hk : k < entries (imageIn (superBlock sectCnt ROOT_DEV_NR) s))
    (hkn : numAt (imageIn (superBlock sectCnt ROOT_DEV_NR) s).dir k =
      numberOf s (pathname.takeWhile (· ≠ 0)))
    (hpath : 0 ∉ path) (hm : numberOf s path = m) (hm1 : 1 < m)
    (hother : numberOf s path ≠ numberOf s (pathname.takeWhile (· ≠ 0)))
    (hj : j < entries (imageIn (superBlock sectCnt ROOT_DEV_NR) s))
    (hjm : numAt (imageIn (superBlock sectCnt ROOT_DEV_NR) s).dir j = m) :
    numberOf t path =
        (if j < lookedWithout (superBlock sectCnt ROOT_DEV_NR) s k then (m : Int)
          else INVALID_INODE) ∧
      (imageIn (superBlock sectCnt ROOT_DEV_NR) t).inodeBit m = true := by
  obtain ⟨a, -, hfits, hs, -⟩ := run_simulated (store_simulates hcond) hreach
  obtain ⟨⟨hcounted, -⟩, -⟩ := counted_unlink hs.inv.counted hret hrun
  obtain ⟨n, hn, hn1, hgone, ht⟩ := inv_unlink hfits hs.inv hret hrun hcounted
  obtain ⟨name, hname, hne, hfile⟩ := name_of_number hfits hs.inv hs.names hpath hm hm1
  rw [hn] at hkn hother
  have hmn : m ≠ n := by
    rintro rfl
    exact hother hm
  refine ⟨number_gone hfits hs.inv ht hs.names hpath hname hne hfile hkn hk hjm hj hmn
    (by omega) hgone, bit_of_live ht.files.maps (Finset.mem_erase.mpr ⟨hmn, ?_⟩)⟩
  exact (live_of_file hs.inv hs.names hfile).1

/-- `cmd.tar` is removed from a new file system, and `dev_tty1` is still found. -/
theorem number_unlinked_tar : ∃ s t : Fs, Boot 40960 s ∧
    doUnlink tarName s = .ok 0 t ∧ numberOf t (ttyName 1) = 3 := by
  have hcond : 2048 ≤ (40960 : BitVec 32).toNat ∧
      (40960 : BitVec 32).toNat < 124768256 := by decide
  obtain ⟨s, hboot, himage⟩ := boot_blank
  obtain ⟨hfits, a, hfirst, hs⟩ := boot_stands hcond hboot
  have hentries := entries_new himage
  have hdir : ∀ k < 5, numAt (imageIn (superBlock 40960 ROOT_DEV_NR) s).dir k =
      (k + 1 : Nat) := by
    have hnums : ∀ k < 5, numAt entryBytes k = (k + 1 : Nat) := by decide +kernel
    intro k hk
    rw [← hnums k hk]
    exact (entry_congr fun l hl => himage.dir _ (by omega)).1
  have htty : numberOf s (ttyName 1) = 3 := by
    rw [numberOf_store hfits hs (by decide), Store.numberOf, hfirst.files]
    decide +kernel
  have hpath : tarName.takeWhile (· ≠ 0) = tarName := by decide
  obtain ⟨htar, hremovable⟩ := tar_removable hfits hs hfirst himage
  obtain ⟨ret, t, hunlink, hanswer⟩ := unlink_decides hfits hs
    (show tarName.length < 128 by decide)
    (idle_freeInode hs.inv.counted (first_idle hs hfirst))
  rw [hpath] at hanswer
  obtain ⟨rfl, -⟩ := hanswer.resolve_right fun h => h.2 hremovable
  have hafter := (number_unlinked hcond (.start hboot) (by decide) hunlink (k := 4)
    (j := 2) (m := 3) (by rw [hentries]; decide)
    (by rw [hpath, htar]; exact hdir 4 (by decide)) (by decide) htty (by decide)
    (by rw [hpath, htar, htty]; decide)
    (by rw [hentries]; decide) (hdir 2 (by decide))).1
  refine ⟨s, t, hboot, hunlink, hafter.trans (if_pos ?_)⟩
  -- four entries are used in front of the last one
  have hused : usedBefore (imageIn (superBlock 40960 ROOT_DEV_NR) s).dir 4 = 4 := by
    refine (Nat.count_iff_forall ..).mpr fun k hk => ?_
    rw [hdir k (by omega), show INVALID_INODE = 0 from rfl]
    omega
  have hroot : ((imageIn (superBlock 40960 ROOT_DEV_NR) s).inode 1).fileSize = 80 := by
    rw [show 1 = 0 + 1 from rfl, himage.inode 0 (by decide)]
    rfl
  rw [lookedWithout, hroot, sizeWithout, hused]
  decide

end Hidden

end KosRemovals
