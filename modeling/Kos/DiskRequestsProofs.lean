import Kos.DiskRegionsProofs
import Kos.RequestCountsProofs

/-! # What the requests do to the disk

    Over the functions of which they are made: a file that is opened, created
    or removed, the image of the disk behind it, and the tables. -/

namespace KosDiskRequests

open FlatMemory (Byte)
open BitMap (FirstClear)
open KosFs
open KosMkfs
open KosFileNames
open KosOpenFile
open KosUnlink
open KosInodeMap (inodeMap)
open KosSectorMap (sectorNr mapSize)
open KosRootDirectory (numAt)
open KosRefusals (numberOf getFileInodeNr_number run_map)
open KosRequestCounts (cached_some freeInode_zero key refs)
open FrameRule
open KosTables
open KosDiskImage
open KosDiskSteps
open KosDiskRegions

section Requests

variable {sb : SuperBlock} {s t w : Fs} {r : Inode} {i : Fin NR_INODE}
  {dev nr : Int} {path : List Byte} {u : Unit}

/-! ## Creating -/

/-- Where a new file goes: an inode number and sectors that are not in use, an
    entry of `inode_table`, and the first free entry of the directory or the
    one behind the last. -/
structure Room (sb : SuperBlock) (s : Fs) (size : BitVec 32) (b β k : Nat)
    (free : Bool) (i : Fin NR_INODE) : Prop where
  number : b < 4096
  inodeClear : (imageIn sb s).inodeBit b = false
  sectsEnd : β + NR_FILE_SECTS ≤ mapSize sb
  sectsClear : ∀ y, β ≤ y → y < β + NR_FILE_SECTS →
    (imageIn sb s).sectBit y = false
  entry : s.cached ROOT_DEV_NR b = some i ∨
    s.cached ROOT_DEV_NR b = none ∧ s.freeInode = some i
  notRoot : i ≠ s.rootInode
  slot : if free = true then k < size.toNat / 16 ∧ numAt (imageIn sb s).dir k = 0
    else k = size.toNat / 16
  before : ∀ j < k, numAt (imageIn sb s).dir j ≠ 0

/-- The entry that a number gets is not that of the root inode. -/
theorem entry_notRoot {b : Nat} (hr : AtRoot sb s s.rootInode r) (hused : r.cnt ≠ 0)
    (hb1 : b ≠ 1) (hentry : s.cached ROOT_DEV_NR b = some i ∨
      s.cached ROOT_DEV_NR b = none ∧ s.freeInode = some i) :
    i ≠ s.rootInode := by
  rintro rfl
  rcases hentry with hc | ⟨-, hf⟩
  · have hkey := (Prod.mk.inj (cached_some hc).2).2
    rw [hr.entry, hr.nr, show ROOT_INODE_NR = 1 from rfl] at hkey
    omega
  · have hzero := freeInode_zero hf
    rw [refs] at hzero
    exact hused (hr.entry ▸ hzero)

/-- **`create_file`** makes a file where there is room. -/
theorem becomes_createFile (hm : Made sb)
    (hsb : s.superOf ROOT_DEV_NR = some sb) (hr : AtRoot sb s s.rootInode r)
    (hsize : r.fileSize.toNat < DIR_BYTES) (hused : r.cnt ≠ 0)
    (hbits : (imageIn sb s).inodeBit 0 = true ∧ (imageIn sb s).inodeBit 1 = true)
    (h : createFile path s = .ok (some i) t) :
    ∃ name b β k free g, getFileName path = some name ∧
      Room sb s r.fileSize b β k free i ∧
      (∀ y < β, (imageIn sb s).sectBit y = true) ∧
      (name.length ≤ 11 → g = putEntry (imageIn sb s).dir (16 * k) b name) ∧
      Becomes sb
        ((s.updInode i fun _ => newInode ROOT_DEV_NR b (sectorNr sb β)).updInode
          s.rootInode (grown free))
        ((imageIn sb s).withEntry b β g
          (newInode ROOT_DEV_NR b (sectorNr sb β)) (grown free r)) t ∧
      OuterKept sb s t := by
  rw [createFile] at h
  cases hname : getFileName path with
  | none =>
      rw [hname] at h
      cases h
  | some name =>
      rw [hname] at h
      dsimp only at h
      rw [run_get_bind, hr.entry, hr.dev] at h
      obtain ⟨nr, s₁, hnr, h⟩ := run_bind.mp h
      obtain ⟨start, s₂, hstart, h⟩ := run_bind.mp h
      obtain ⟨j, s₃, hnew, h⟩ := run_bind.mp h
      rw [run_get_bind] at h
      obtain ⟨_, s₄, hdir, h⟩ := run_bind.mp h
      cases h
      obtain ⟨b, rfl, hb, -, hclear, h₁⟩ :=
        becomes_allocInode hm (run_makeNewInode hnew).1 hnr
      have hsuper₁ := (superOf_congr h₁.tables.supers).trans hsb
      obtain ⟨β, rfl, hend, hset, hsects, h₂⟩ :=
        becomes_allocSects hm hsuper₁ (by decide) hstart
      have hs₂ : SameTables s s₂ := same_trans h₁.tables h₂.tables
      have hsuper₂ := (superOf_congr hs₂.supers).trans hsb
      have hmaps := trans_of (OuterKept sb) (outer_allocInode hm hnr)
        (outer_allocSects hm hsuper₁ (by decide) hstart)
      have hb1 : b ≠ 1 := by
        rintro rfl
        rw [hbits.2] at hclear
        cases hclear
      have hb0 : b ≠ 0 := by
        rintro rfl
        rw [hbits.1] at hclear
        cases hclear
      obtain ⟨hentry, h₃⟩ :=
        becomes_makeNewInode hm hsuper₂ (by omega) (by omega) hnew
      rw [cached_congr hs₂, freeInode_congr hs₂] at hentry
      have hs₃ := same_trans (same_updInode hs₂ i _) h₃.tables
      have himage₃ := h₃.image
      rw [h₂.image, h₁.image] at himage₃
      have hi := entry_notRoot hr hused hb1 hentry
      have hroot : AtRoot sb s₃ s.rootInode r := by
        refine ⟨?_, hr.dev, hr.nr, hr.dir, ?_⟩
        · rw [hs₃.inodes]
          exact (Function.update_of_ne hi.symm ..).trans hr.entry
        · rw [himage₃]
          exact (Function.update_of_ne (Ne.symm hb1) ..).trans hr.stored
      have hnr : (s₃.inodeTable i).nr = b := by
        rw [hs₃.inodes]
        exact congrArg Inode.nr (updInode_self s _)
      rw [hnr] at hdir
      have hsuper₃ := (superOf_congr hs₃.supers).trans hsb
      obtain ⟨k, free, g, hslot, hbefore, hg, h₄⟩ :=
        becomes_newEntry hm hsuper₃ hroot hsize hdir
      rw [himage₃] at hslot hbefore hg h₄
      rw [h₁.image] at hset hsects
      have hfile := trans_of (OuterKept sb) hmaps
        (outer_newInode hm hsuper₂ (by omega) (by omega) hnew)
      exact ⟨name, b, β, k, free, g, rfl, ⟨hb, hclear, hend, hsects, hentry, hi, hslot,
        hbefore⟩, hset, hg,
        ⟨same_trans (same_updInode hs₃ s.rootInode _) h₄.tables, h₄.image⟩,
        trans_of (OuterKept sb) hfile (outer_newEntry hm hsuper₃ hroot.entry hr.dev
          hr.nr hr.dir hsize hdir)⟩

/-! ## Opening -/

/-- **`do_open`** that succeeds finds or makes an inode, truncates it and
    connects a descriptor. -/
theorem open_parts {pid ret : Int} {pathname : List Byte} {flags : BitVec 32}
    (hret : ret ≠ -1) (h : doOpen pid pathname flags s = .ok ret t) :
    ∃ fd i v x d, freeFd s pid = some fd ∧ ret = (fd.val : Int) ∧
      findInode (pathname.takeWhile (· ≠ 0)) flags s = .ok (some (some i)) v ∧
      truncInode flags (some i) v = .ok () x ∧ freeDesc x = some d ∧
      t = connect x pid fd d i flags := by
  rw [doOpen] at h
  obtain ⟨_, _, hcheck, h⟩ := run_bind.mp h
  obtain ⟨-, rfl⟩ := run_check.mp hcheck
  rw [run_get_bind] at h
  cases hfd : freeFd s pid with
  | none =>
      rw [hfd] at h
      cases h
  | some fd =>
      rw [hfd] at h
      obtain ⟨p, v, hfind, h⟩ := run_bind.mp h
      cases p with
      | none =>
          cases h
          exact absurd rfl hret
      | some p =>
          obtain ⟨_, x, htrunc, h⟩ := run_bind.mp h
          rw [run_get_bind] at h
          cases hdesc : freeDesc x with
          | none =>
              rw [hdesc] at h
              cases h
          | some d =>
              rw [hdesc] at h
              cases p with
              | none =>
                  cases h
                  exact absurd rfl hret
              | some i =>
                  obtain ⟨_, y, hconnect, h⟩ := run_bind.mp h
                  obtain rfl := run_modify.mp hconnect
                  obtain ⟨_, z, htype, h⟩ := run_bind.mp h
                  cases h
                  refine ⟨fd, i, v, x, d, rfl, rfl, hfind, htrunc, hdesc, ?_⟩
                  rw [checkType, run_get_bind] at htype
                  split at htype
                  · exact (run_check.mp htype).2.symm
                  · split at htype
                    · exact (run_check.mp htype).2.symm
                    · exact (run_check.mp htype).2.symm

/-- The free descriptor is the one there was. -/
theorem freeDesc_congr (h : t.fileDescTable = s.fileDescTable) :
    freeDesc t = freeDesc s := by
  rw [freeDesc, freeDesc, h]

/-- The inode that was obtained is the one on the disk. -/
theorem obtained_inode {n : Nat} (hsb : s.superOf ROOT_DEV_NR = some sb)
    (h1 : 1 ≤ n) (h2 : n ≤ 4096)
    (hcached : ∀ j, s.cached ROOT_DEV_NR n = some j →
      (imageIn sb s).inode n = asStored n (s.inodeTable j))
    (h : Obtained s ROOT_DEV_NR n i w) :
    (w.inodeTable i).dev = ROOT_DEV_NR ∧ (w.inodeTable i).nr = n ∧
      (imageIn sb s).inode n = asStored n (w.inodeTable i) := by
  cases h with
  | cached hc =>
      obtain ⟨hdev, hnr⟩ := Prod.mk.inj (cached_some hc).2
      rw [updInode_self, hcached i hc]
      exact ⟨hdev, hnr, rfl⟩
  | loaded sb' _ _ hsb' =>
      obtain rfl := Option.some.inj (hsb.symm.trans hsb')
      rw [updInode_self]
      exact ⟨rfl, rfl, if_pos ⟨h1, h2⟩⟩

/-- **A FILE IS OPENED.** -/
theorem becomes_openOld {n : Nat} {pid ret : Int} {pathname : List Byte}
    {flags : BitVec 32} (hm : Made sb) (hsb : s.superOf ROOT_DEV_NR = some sb)
    (hdev : (s.inodeTable s.rootInode).dev = ROOT_DEV_NR)
    (hnr : numberOf s (pathname.takeWhile (· ≠ 0)) = n) (h1 : 1 ≤ n)
    (h2 : n ≤ 4096)
    (hcached : ∀ j, s.cached ROOT_DEV_NR n = some j →
      (imageIn sb s).inode n = asStored n (s.inodeTable j))
    (hret : ret ≠ -1) (h : doOpen pid pathname flags s = .ok ret t) :
    ∃ fd d i w, freeFd s pid = some fd ∧ freeDesc s = some d ∧
      ret = (fd.val : Int) ∧ Obtained s ROOT_DEV_NR n i w ∧
      Becomes sb (connect (truncated flags i w) pid fd d i flags)
        ((imageIn sb s).setInode n ((truncated flags i w).inodeTable i)) t ∧
      OuterKept sb s t := by
  obtain ⟨fd, i, v, x, d, hfd, hret', hfind, htrunc, hdesc, rfl⟩ :=
    open_parts hret h
  obtain ⟨nr, s₁, hrun, hfind⟩ := run_bind.mp hfind
  obtain ⟨⟨g, rfl⟩, -⟩ := run_getFileInodeNr hrun
  obtain rfl := getFileInodeNr_number hrun
  have hvalid : numberOf s (pathname.takeWhile (· ≠ 0)) ≠ INVALID_INODE := by
    rw [hnr, show INVALID_INODE = 0 from rfl]
    omega
  rw [if_neg hvalid] at hfind
  split at hfind
  · split at hfind
    · obtain ⟨_, _, -, hfind⟩ := run_bind.mp hfind
      cases hfind
    · obtain ⟨_, _, hcheck, hfind⟩ := run_bind.mp hfind
      obtain ⟨-, rfl⟩ := run_check.mp hcheck
      cases hname : getFileName (pathname.takeWhile (· ≠ 0)) with
      | none =>
          rw [hname] at hfind
          cases hfind
      | some name =>
          rw [hname] at hfind
          dsimp only at hfind
          rw [run_get_bind, hnr] at hfind
          obtain ⟨q, hget, hq⟩ := run_map.mp hfind
          cases hq
          dsimp only at hget
          rw [hdev] at hget
          obtain ⟨j, y, hj, hobt, hy⟩ := becomes_getFileInode sb (by omega) hget
          cases hj
          obtain ⟨w, hw, hwy⟩ := obtained_fsbuf hobt
          have hsame := same_trans hwy hy.tables
          have himage : imageIn sb v = imageIn sb s := hy.image
          obtain ⟨hidev, hinr, hstored⟩ := obtained_inode hsb h1 h2 hcached hw
          rw [← himage] at hstored
          have hv : v.inodeTable i = w.inodeTable i := congrFun hsame.inodes i
          have hsuper : v.superOf ROOT_DEV_NR = some sb := by
            refine (superOf_congr (s := s) (hsame.supers.trans ?_)).trans hsb
            cases hw <;> rfl
          have htr := becomes_trunc hm hsuper hv hidev hinr h1 h2 hstored htrunc
          have htables := same_trans (same_truncated hsame flags i) htr.tables
          have hfound : OuterKept sb s v :=
            outer_getFileInode (s := { s with fsbuf := g }) (by omega) hget
          refine ⟨fd, d, i, w, hfd, ?_, hret', hw,
            ⟨same_connect htables pid fd d i flags, ?_⟩,
            trans_of (OuterKept sb) hfound (trans_of (OuterKept sb)
              (outer_trunc hm hsuper hv hidev hinr h1 h2 htrunc) (outer_of_eq rfl))⟩
          · rw [← hdesc]
            refine (freeDesc_congr (htables.descs.trans ?_)).symm
            rw [truncated_descs]
            cases hw <;> rfl
          · rw [← himage, ← congrFun (same_truncated hsame flags i).inodes i]
            exact htr.image
  · cases hfind

/-- An empty file stays as it is. -/
theorem truncated_empty {flags : BitVec 32}
    (h : (s.inodeTable i).fileSize = 0) : truncated flags i s = s := by
  rw [truncated]
  split
  · rfl
  · rw [Fs.updInode, ← h, Function.update_eq_self]

/-- **A FILE IS CREATED.** -/
theorem becomes_openNew {pid ret : Int} {pathname : List Byte}
    {flags : BitVec 32} (hm : Made sb) (hsb : s.superOf ROOT_DEV_NR = some sb)
    (hr : AtRoot sb s s.rootInode r) (hsize : r.fileSize.toNat < DIR_BYTES)
    (hused : r.cnt ≠ 0)
    (hbits : (imageIn sb s).inodeBit 0 = true ∧ (imageIn sb s).inodeBit 1 = true)
    (hnr : numberOf s (pathname.takeWhile (· ≠ 0)) = INVALID_INODE)
    (hret : ret ≠ -1) (h : doOpen pid pathname flags s = .ok ret t) :
    ∃ fd d i name b β k free g, freeFd s pid = some fd ∧ freeDesc s = some d ∧
      ret = (fd.val : Int) ∧
      getFileName (pathname.takeWhile (· ≠ 0)) = some name ∧
      Room sb s r.fileSize b β k free i ∧
      (∀ y < β, (imageIn sb s).sectBit y = true) ∧
      (name.length ≤ 11 → g = putEntry (imageIn sb s).dir (16 * k) b name) ∧
      Becomes sb (connect ((s.updInode i fun _ =>
          newInode ROOT_DEV_NR b (sectorNr sb β)).updInode s.rootInode
            (grown free)) pid fd d i flags)
        ((imageIn sb s).withEntry b β g
          (newInode ROOT_DEV_NR b (sectorNr sb β)) (grown free r)) t ∧
      OuterKept sb s t := by
  obtain ⟨fd, i, v, x, d, hfd, hret', hfind, htrunc, hdesc, rfl⟩ :=
    open_parts hret h
  obtain ⟨nr, s₁, hrun, hfind⟩ := run_bind.mp hfind
  obtain ⟨⟨g, rfl⟩, -⟩ := run_getFileInodeNr hrun
  obtain rfl := getFileInodeNr_number hrun
  rw [if_pos hnr] at hfind
  split at hfind
  · obtain ⟨q, hnew, hq⟩ := run_map.mp hfind
    cases hq
    have hr' : AtRoot sb { s with fsbuf := g } s.rootInode r :=
      ⟨hr.entry, hr.dev, hr.nr, hr.dir, hr.stored⟩
    obtain ⟨name, b, β, k, free, e, hname, hroom, hset, he, hv, hmade⟩ :=
      becomes_createFile hm (s := { s with fsbuf := g }) hsb hr' hsize hused hbits hnew
    obtain ⟨q, hq⟩ : ∃ q, q = newInode ROOT_DEV_NR b (sectorNr sb β) := ⟨_, rfl⟩
    rw [← hq] at hv
    have hb1 : b ≠ 1 := by
      rintro rfl
      rw [show (imageIn sb s).inodeBit 1 = false from hroom.inodeClear] at hbits
      exact Bool.noConfusion hbits.2
    have hvi : v.inodeTable i = q := by
      rw [hv.tables.inodes]
      exact (Function.update_of_ne hroom.notRoot ..).trans (updInode_self _ _)
    have hstored : (imageIn sb v).inode b = asStored b q := by
      rw [hv.image]
      exact (Function.update_of_ne hb1 ..).trans (Function.update_self ..)
    have hsuper : v.superOf ROOT_DEV_NR = some sb :=
      (superOf_congr hv.tables.supers).trans hsb
    have hempty : truncated flags i v = v := by
      refine truncated_empty ?_
      rw [hvi, hq]
      rfl
    have hb0 : b ≠ 0 := by
      rintro rfl
      rw [show (imageIn sb s).inodeBit 0 = false from hroom.inodeClear] at hbits
      exact Bool.noConfusion hbits.1
    have hnumber := hroom.number
    have htr := becomes_trunc hm hsuper hvi (by rw [hq]; rfl) (by rw [hq]; rfl)
      (by omega) (by omega) hstored htrunc
    have hcut : OuterKept sb v x := outer_trunc hm hsuper hvi (by rw [hq]; rfl)
      (by rw [hq]; rfl) (by omega) (by omega) htrunc
    rw [hempty, hvi, setInode_self hstored, hv.image] at htr
    have htables := same_trans hv.tables htr.tables
    refine ⟨fd, d, i, name, b, β, k, free, e, hfd, ?_, hret', hname,
      ⟨hroom.number, hroom.inodeClear, hroom.sectsEnd, hroom.sectsClear,
        hroom.entry, hroom.notRoot, hroom.slot, hroom.before⟩, hset, he,
      ⟨?_, hq ▸ htr.image⟩, trans_of (OuterKept sb) (show OuterKept sb s v from hmade)
        (trans_of (OuterKept sb) hcut (outer_of_eq rfl))⟩
    · rw [← hdesc]
      exact (freeDesc_congr htables.descs).symm
    · rw [← hq]
      exact same_connect (s := (s.updInode i fun _ => q).updInode s.rootInode
        (grown free)) ⟨htables.inodes, htables.supers, htables.descs,
          htables.slots, htables.root⟩ pid fd d i flags
  · cases hfind

/-! ## Removing -/

variable (sb) in
/-- **`do_unlink`** that succeeds gets the inode of a regular file and clears
    its bits, its fields and its entry. -/
theorem unlink_parts {pathname : List Byte} {ret : Int}
    (hdev : (s.inodeTable s.rootInode).dev = ROOT_DEV_NR) (hret : ret ≠ -1)
    (h : doUnlink pathname s = .ok ret t) : ret = 0 ∧
    numberOf s (pathname.takeWhile (· ≠ 0)) ≠ 0 ∧ ∃ i w v v₁ v₂ v₃,
      Obtained s ROOT_DEV_NR (numberOf s (pathname.takeWhile (· ≠ 0))) i w ∧
      Becomes sb w (imageIn sb s) v ∧ OuterKept sb s v ∧
      (v.inodeTable i).fileType = TYPE_REGULAR ∧ (v.inodeTable i).cnt ≤ 1 ∧
      clearInodeMapBit (v.inodeTable i).dev
        (numberOf s (pathname.takeWhile (· ≠ 0))) v = .ok () v₁ ∧
      clearSectorMapBits i v₁ = .ok () v₂ ∧ clearInodeFields i v₂ = .ok () v₃ ∧
      clearDirectoryEntry s.rootInode
        (numberOf s (pathname.takeWhile (· ≠ 0))) v₃ = .ok () t := by
  obtain ⟨_, _, hcheck, h⟩ := run_bind.mp h
  obtain ⟨-, rfl⟩ := run_check.mp hcheck
  obtain ⟨path, hpath⟩ : ∃ path, path = pathname.takeWhile (· ≠ 0) := ⟨_, rfl⟩
  rw [← hpath] at h ⊢
  split at h
  · cases h
    exact absurd rfl hret
  obtain ⟨nr, s₁, hrun, h⟩ := run_bind.mp h
  obtain ⟨⟨g, rfl⟩, -⟩ := run_getFileInodeNr hrun
  obtain rfl := getFileInodeNr_number hrun
  by_cases hnr : numberOf s path = INVALID_INODE
  · rw [if_pos hnr] at h
    cases h
    exact absurd rfl hret
  rw [if_neg hnr, unlinkInode] at h
  cases hname : getFileName path with
  | none =>
      rw [hname] at h
      cases h
      exact absurd rfl hret
  | some name =>
      rw [hname] at h
      dsimp only at h
      rw [run_get_bind] at h
      obtain ⟨p, v, hget, h⟩ := run_bind.mp h
      dsimp only at hget
      rw [hdev] at hget
      obtain ⟨i, x, rfl, hobt, hv⟩ := becomes_getFileInode sb hnr hget
      dsimp only at h
      rw [run_get_bind] at h
      split at h
      · cases h
        exact absurd rfl hret
      rename_i htype
      split at h
      · cases h
        exact absurd rfl hret
      rename_i hcnt
      obtain ⟨_, v₁, himap, h⟩ := run_bind.mp h
      obtain ⟨_, v₂, hsmap, h⟩ := run_bind.mp h
      obtain ⟨_, v₃, hfields, h⟩ := run_bind.mp h
      obtain ⟨_, v₄, hdir, h⟩ := run_bind.mp h
      cases h
      obtain ⟨w, hw, hwx⟩ := obtained_fsbuf hobt
      have hkept : OuterKept sb s v :=
        outer_getFileInode (s := { s with fsbuf := g }) hnr hget
      exact ⟨rfl, hnr, i, w, v, v₁, v₂, v₃, hw, ⟨same_trans hwx hv.tables, hv.image⟩, hkept,
        not_not.mp htype, Int.not_lt.mp hcnt, himap, hsmap, hfields, hdir⟩

/-- A regular file in the image: its number and its sectors are in use. -/
structure HasFile (sb : SuperBlock) (m : Image) (n β : Nat) : Prop where
  range : 1 ≤ n ∧ n < 4096
  bit : m.inodeBit n = true
  type : (m.inode n).fileType = TYPE_REGULAR
  start : (m.inode n).sectStart = BitVec.ofInt 32 (sectorNr sb β)
  sects : (m.inode n).nrSects = BitVec.ofNat 32 NR_FILE_SECTS
  sectsEnd : β + NR_FILE_SECTS ≤ mapSize sb
  sectsSet : ∀ y, β ≤ y → y < β + NR_FILE_SECTS → m.sectBit y = true

/-- **A FILE IS REMOVED.** -/
theorem becomes_unlink {pathname : List Byte} {ret : Int} {g : Nat → Nat}
    (hm : Made sb)
    (hsmall : mapSize sb ≤ 2147483648)
    (hsb : s.superOf ROOT_DEV_NR = some sb) (hr : AtRoot sb s s.rootInode r)
    (hused : r.cnt ≠ 0) (hdir : r.fileType = TYPE_DIRECTORY)
    (hcached : ∀ (n : Nat) (j : Fin NR_INODE), s.cached ROOT_DEV_NR n = some j →
      (imageIn sb s).inode n = asStored n (s.inodeTable j))
    (hfile : ∀ n : Nat, n ≠ 0 → (imageIn sb s).inodeBit n = true →
      ((imageIn sb s).inode n).fileType = TYPE_REGULAR →
      HasFile sb (imageIn sb s) n (g n))
    (hret : ret ≠ -1) (h : doUnlink pathname s = .ok ret t) :
    ∃ (n k : Nat) (i : Fin NR_INODE) (w : Fs),
      numberOf s (pathname.takeWhile (· ≠ 0)) = n ∧
      HasFile sb (imageIn sb s) n (g n) ∧ n ≠ 1 ∧ i ≠ s.rootInode ∧
      Obtained s ROOT_DEV_NR n i w ∧ (w.inodeTable i).cnt ≤ 1 ∧
      k < r.fileSize.toNat / 16 ∧ numAt (imageIn sb s).dir k = n ∧
      (∀ j < k, numAt (imageIn sb s).dir j ≠ n) ∧
      Becomes sb (sized s.rootInode
          (sizeWithout (imageIn sb s).dir r.fileSize k)
          (lessUsed i (w.updInode i emptied)))
        ((imageIn sb s).withoutFile n (g n) k (emptied (w.inodeTable i)) { r with
          fileSize := sizeWithout (imageIn sb s).dir r.fileSize k }) t ∧
      OuterKept sb s t := by
  obtain ⟨-, hnr, i, w, v, v₁, v₂, v₃, hobt, hv, hkept, htype, hcnt, himap, hsmap,
    hfields, hentry⟩ := unlink_parts sb (hr.entry ▸ hr.dev) hret h
  obtain ⟨nr, hnumber⟩ : ∃ nr, nr = numberOf s (pathname.takeWhile (· ≠ 0)) :=
    ⟨_, rfl⟩
  rw [← hnumber] at hnr hobt himap hentry ⊢
  have hdev : (w.inodeTable i).dev = ROOT_DEV_NR := by
    cases hobt with
    | cached hc =>
        rw [updInode_self]
        exact (Prod.mk.inj (cached_some hc).2).1
    | loaded _ _ _ _ =>
        rw [updInode_self]
        rfl
  have hv₀ : v.inodeTable i = w.inodeTable i := congrFun hv.tables.inodes i
  rw [hv₀, hdev] at himap
  obtain ⟨n, rfl, hlt, hbit, h₁⟩ := becomes_clearInode hm himap
  rw [hv.image] at hbit h₁
  have hn0 : n ≠ 0 := fun h0 => hnr (by rw [h0]; rfl)
  obtain ⟨-, hinr, hstored⟩ :=
    obtained_inode hsb (by omega) (by omega) (hcached n) hobt
  have htype' : ((imageIn sb s).inode n).fileType = TYPE_REGULAR := by
    rw [hstored, ← htype, hv₀]
    rfl
  have hf := hfile n hn0 hbit htype'
  have hn1 : n ≠ 1 := by
    rintro rfl
    rw [hr.stored, show (asStored 1 r).fileType = r.fileType from rfl, hdir]
      at htype'
    exact absurd htype' (by decide)
  have hi : i ≠ s.rootInode := by
    refine entry_notRoot hr hused hn1 ?_
    cases hobt with
    | cached hc => exact Or.inl hc
    | loaded _ hnone hfree _ => exact Or.inr ⟨hnone, hfree⟩
  -- the number, the sectors, the fields and the entry, one after the other
  obtain ⟨p, hp⟩ : ∃ p, p = w.inodeTable i := ⟨_, rfl⟩
  rw [← hp] at hdev hinr hstored
  have hs₁ : SameTables w v₁ := same_trans hv.tables h₁.tables
  have hsuper : ∀ {x : Fs}, SameTables w x → x.superOf ROOT_DEV_NR = some sb := by
    intro x hx
    refine (superOf_congr (s := s) (hx.supers.trans ?_)).trans hsb
    cases hobt <;> rfl
  have hp₁ : v₁.inodeTable i = p := (congrFun hs₁.inodes i).trans hp.symm
  obtain ⟨x, hx, hclears, h₂⟩ := becomes_clearSects (n := NR_FILE_SECTS) (b := g n) hm
    (hp₁ ▸ hdev) (hsuper hs₁) (by decide) (by decide) hf.sectsEnd
    (by have := hf.sectsEnd; rw [show NR_FILE_SECTS = 2048 from rfl] at this; omega)
    (by rw [hp₁, ← hf.start, hstored]; rfl)
    (by rw [hp₁, ← hf.sects, hstored]; rfl)
    (by rw [h₁.image]; exact hf.sectsSet)
  rw [hx] at hsmap
  cases hsmap
  have hs₂ := same_trans hs₁ h₂.tables
  have h₃ := becomes_clearFields hm (hsuper hs₂)
    ((congrFun hs₂.inodes i).trans hp.symm) hdev hinr (by omega) (by omega)
    hfields
  have hs₃ := same_trans (same_updInode (same_updInode hs₂ i emptied) i
    fun p => { p with cnt := p.cnt - 1 }) h₃.tables
  have himage₃ := h₃.image
  rw [h₂.image, h₁.image] at himage₃
  have hroot : AtRoot sb v₃ s.rootInode r := by
    refine ⟨?_, hr.dev, hr.nr, hr.dir, ?_⟩
    · rw [hs₃.inodes]
      refine (Function.update_of_ne hi.symm ..).trans ?_
      refine (Function.update_of_ne hi.symm ..).trans ?_
      rw [← hr.entry]
      cases hobt <;> exact Function.update_of_ne hi.symm ..
    · rw [himage₃]
      exact (Function.update_of_ne hn1.symm ..).trans hr.stored
  have hsuper₃ : v₃.superOf ROOT_DEV_NR = some sb :=
    (superOf_congr (s := v₂) h₃.tables.supers).trans (hsuper hs₂)
  obtain ⟨k, hk, hnum, hfirst, h₄⟩ := becomes_clearEntry hm hsuper₃ hroot hentry
  rw [himage₃] at hnum hfirst h₄
  have hmaps := trans_of (OuterKept sb) (trans_of (OuterKept sb) hkept
    (outer_clearInode hm himap)) (outer_clears hm hf.sectsEnd hclears)
  have hinode := trans_of (OuterKept sb) hmaps (outer_clearFields hm (hsuper hs₂)
    ((congrFun hs₂.inodes i).trans hp.symm) hdev hinr (by omega) (by omega) hfields)
  exact ⟨n, k, i, w, rfl, hf, hn1, hi, hobt, hv₀ ▸ hcnt, hk, hnum, hfirst,
    ⟨same_trans (same_updInode hs₃ s.rootInode _) h₄.tables, hp ▸ h₄.image⟩,
    trans_of (OuterKept sb) hinode
      (outer_clearEntry hm hsuper₃ hroot.entry hr.dev hr.nr hr.dir hentry)⟩

end Requests

end KosDiskRequests
