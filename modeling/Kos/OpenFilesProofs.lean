import Kos.FileStoreProofs
import Kos.MapRunsProofs

/-! # The open files of the processes

    What the slots of the processes and the tables of descriptors and inodes
    stand for: `openedAt` is the open file of a descriptor, its number, position
    and flags.

    * FS_OPEN gives a free slot a free descriptor (`open_slots`), and what the
      other requests leave of the open files follows from what they do to the
      tables. -/

namespace KosOpenFiles

open FlatMemory (Byte)
open RefCount
open KosFs
open KosReadWrite
open KosOpenFile
open KosUnlink
open KosRequests
open KosRefusals (numberOf)
open KosDescriptor (slotOf Behind)
open KosTables
open KosRequestCounts
open KosMapRuns (fileOf)
open KosFileStore

/-- The open file of a descriptor. -/
def openedAt (s : Fs) (d : Fin NR_FILE_DESC) : Option Opened :=
  (s.fileDescTable d).inode.map fun i =>
    ⟨(s.inodeTable i).nr.toNat, (s.fileDescTable d).pos.toNat,
      (s.fileDescTable d).mode⟩

section Opened

variable {s t w : Fs} {p : Pid} {d : Fin NR_FILE_DESC} {i : Fin NR_INODE}
  {k : Int × Int} {fd : Int} {o : Opened}

theorem openedAt_some (hd : (s.fileDescTable d).inode = some i) :
    openedAt s d = some ⟨(s.inodeTable i).nr.toNat,
      (s.fileDescTable d).pos.toNat, (s.fileDescTable d).mode⟩ := by
  rw [openedAt, hd]
  rfl

theorem openedAt_none : openedAt s d = none ↔ (refs s).target d = none :=
  Option.map_eq_none_iff

/-- The numbers of the open files are as they were, and the descriptors. -/
theorem openedAt_congr (hdescs : t.fileDescTable = s.fileDescTable)
    (hnr : ∀ d i, (s.fileDescTable d).inode = some i →
      (t.inodeTable i).nr = (s.inodeTable i).nr) : openedAt t = openedAt s := by
  funext d
  rw [openedAt, openedAt, hdescs]
  cases hd : (s.fileDescTable d).inode with
  | none => rfl
  | some i => rw [Option.map_some, Option.map_some, hnr d i hd]

theorem openedAt_alike (hdescs : t.fileDescTable = s.fileDescTable)
    (h : Alike s t) : openedAt t = openedAt s :=
  openedAt_congr hdescs fun _ i _ => congrArg Prod.snd (congrFun h.key i)

theorem openedAt_same (h : SameTables s t) : openedAt t = openedAt s :=
  openedAt_alike h.descs (alike_same h)

/-- An entry that was taken is none of an open file, or of the same number. -/
theorem openedAt_taken (hs : Counted s) (hw : Taken s i k w)
    (hkey : (refs s).uses i ≠ 0 → key s i = k)
    (hdescs : w.fileDescTable = s.fileDescTable) : openedAt w = openedAt s := by
  refine openedAt_congr hdescs fun d j hd => ?_
  have hused := exact_used hs.exact (atRoot_nonneg s) hd
  have hsame : key w j = key s j := by
    rw [hw.key, Function.update_apply]
    split
    · rename_i hj
      rw [hj] at hused ⊢
      exact (hkey (by omega)).symm
    · rfl
  exact congrArg Prod.snd hsame

/-- A descriptor is connected to an inode. -/
theorem openedAt_connect {pid : Int} {slot : Fin NR_FILES} {flags : BitVec 32} :
    openedAt (connect w pid slot d i flags) = Function.update (openedAt w) d
      (some ⟨(w.inodeTable i).nr.toNat, 0, flags⟩) := by
  funext e
  have htable : (connect w pid slot d i flags).fileDescTable e =
      if e = d then { mode := flags, pos := 0, cnt := 1, inode := some i }
        else w.fileDescTable e := Function.update_apply ..
  rw [openedAt, htable, Function.update_apply]
  split <;> rfl

/-- A descriptor is moved. -/
theorem openedAt_move {f : FileDesc → FileDesc} {pos : Nat}
    (ho : openedAt s d = some o)
    (hf : ∀ e, (f e).inode = e.inode ∧ (f e).mode = e.mode)
    (hpos : (f (s.fileDescTable d)).pos.toNat = pos) :
    openedAt (s.updDesc d f) =
      Function.update (openedAt s) d (some { o with pos := pos }) := by
  funext e
  have htable : (s.updDesc d f).fileDescTable e =
      if e = d then f (s.fileDescTable d) else s.fileDescTable e :=
    Function.update_apply ..
  rw [openedAt, htable, Function.update_apply]
  split
  · obtain ⟨hinode, hmode⟩ := hf (s.fileDescTable d)
    rw [hinode, hmode, hpos]
    rw [openedAt] at ho
    obtain ⟨i, hi, rfl⟩ := Option.map_eq_some_iff.mp ho
    rw [hi]
    rfl
  · rfl

/-- A number that is an index of a slot. -/
theorem slotOf_some (h : slotOf s p.val fd = some d) :
    ∃ slot : Fin NR_FILES, fd = slot.val ∧ (refs s).slot (p, slot) = some d := by
  rw [slotOf] at h
  split at h
  · rename_i hlt
    split at h
    · rename_i h0
      exact ⟨⟨fd.toNat, hlt⟩, (Int.toNat_of_nonneg h0).symm, h⟩
    · cases h
  · cases h

theorem slotOf_slot {slot : Fin NR_FILES} :
    slotOf s p.val (slot.val : Int) = (refs s).slot (p, slot) := by
  have hslot : (slot.val : Int).toNat = slot.val := Int.toNat_natCast _
  rw [slotOf, dif_pos (by rw [hslot]; exact slot.isLt),
    if_pos (Int.natCast_nonneg _)]
  exact congrArg (s.fileDesc p.val) (Fin.ext hslot)

/-- A slot has an open file. -/
theorem target_of_slot (hs : Counted s) {x : FileSlot}
    (hx : (refs s).slot x = some d) : ∃ i, (refs s).target d = some i := by
  cases hd : (refs s).target d with
  | some i => exact ⟨i, rfl⟩
  | none =>
      have hzero := (hs.exact.free d).mp hd
      have hone := Finset.single_le_sum (f := fun y =>
        if (refs s).slot y = some d then (1 : Int) else 0)
        (fun y _ => by split <;> decide) (Finset.mem_univ x)
      rw [if_pos hx] at hone
      rw [slots] at hzero
      omega

/-- What no slot is for is not open. -/
theorem openedAt_exact (hs : Counted s) (d : Fin NR_FILE_DESC) :
    openedAt s d = none ↔ ¬ ∃ x, (refs s).slot x = some d := by
  rw [openedAt_none]
  constructor
  · rintro hd ⟨x, hx⟩
    obtain ⟨i, hi⟩ := target_of_slot hs hx
    rw [hd] at hi
    cases hi
  · intro hno
    refine (hs.exact.free d).mpr (Finset.sum_eq_zero fun x _ => ?_)
    exact if_neg fun hx => hno ⟨x, hx⟩

/-- The slots are others: what they are for is open as before. -/
theorem openedAt_keep (ht : Counted t)
    (h : ∀ d, openedAt t d ≠ none → openedAt t d = openedAt s d) :
    openedAt t = fun d =>
      if ∃ x, (refs t).slot x = some d then openedAt s d else none := by
  funext d
  by_cases hslot : ∃ x, (refs t).slot x = some d
  · rw [if_pos hslot]
    exact h d fun hnone => (openedAt_exact ht d).mp hnone hslot
  · rw [if_neg hslot]
    exact (openedAt_exact ht d).mpr hslot

end Opened

/-! ## FS_OPEN -/

section Open

variable {s t : Fs} {p : Pid} {pathname : List Byte} {flags : BitVec 32} {ret : Int}

/-- **A SLOT AND A DESCRIPTOR** that were free are for the number of the path,
    or for that of the new file. -/
theorem open_slots (hs : Counted s) (hunused : NumberUnused s
      (pathname.takeWhile (· ≠ 0)) flags) (hret : ret ≠ -1)
    (h : doOpen p.val pathname flags s = .ok ret t) :
    ∃ (slot : Fin NR_FILES) (d : Fin NR_FILE_DESC) (n : Nat), ret = slot.val ∧
      (refs s).slot (p, slot) = none ∧ openedAt s d = none ∧
      (refs t).slot = Function.update (refs s).slot (p, slot) (some d) ∧
      openedAt t = Function.update (openedAt s) d (some ⟨n, 0, flags⟩) ∧
      (numberOf s (pathname.takeWhile (· ≠ 0)) = INVALID_INODE →
        flags &&& O_CREAT ≠ 0) ∧
      (numberOf s (pathname.takeWhile (· ≠ 0)) ≠ INVALID_INODE →
        n = (numberOf s (pathname.takeWhile (· ≠ 0))).toNat) := by
  obtain ⟨slot, d, i, w, hslot, hdesc, hfd, hloc, hsame⟩ :=
    (doOpen_tables h).resolve_left fun hfail => hret hfail.1
  have hw : openedAt w = openedAt s ∧ (refs w).slot = (refs s).slot ∧
      (numberOf s (pathname.takeWhile (· ≠ 0)) = INVALID_INODE →
        flags &&& O_CREAT ≠ 0) ∧
      (numberOf s (pathname.takeWhile (· ≠ 0)) ≠ INVALID_INODE →
        (w.inodeTable i).nr = numberOf s (pathname.takeWhile (· ≠ 0))) := by
    cases hloc with
    | existing hnr hflags hobt =>
        have htaken := taken_obtained hs hobt
        refine ⟨openedAt_taken hs htaken (fun hused => ?_)
          (by cases hobt <;> rfl), by rw [htaken.refs],
          fun hno => absurd hno hnr, fun _ => ?_⟩
        · cases hobt with
          | cached hc => exact (cached_some hc).2
          | loaded _ _ hfree _ => exact absurd (freeInode_zero hfree) hused
        · have hkey : key w i = ((s.inodeTable s.rootInode).dev,
              numberOf s (pathname.takeWhile (· ≠ 0))) := by
            rw [htaken.key]
            exact Function.update_self ..
          exact congrArg Prod.snd hkey
    | created start free hno hflags hfirst hb hentry =>
        have hnone := hunused hno hflags _ hfirst
        have hfree := (hentry.resolve_left fun hc => by
          rw [hnone] at hc
          cases hc).2
        have htaken := taken_created start free hnone hfree
        refine ⟨openedAt_taken hs htaken
          (fun hused => absurd (freeInode_zero hfree) hused) rfl,
          by rw [htaken.refs], fun _ => hflags, fun hne => absurd hno hne⟩
  obtain ⟨hopened, hslots, hcreat, hnumber⟩ := hw
  have halike : Alike w (truncated flags i w) := alike_truncated flags
  have htrunc : openedAt (truncated flags i w) = openedAt s :=
    (openedAt_alike (truncated_descs flags i w) halike).trans hopened
  have hnr : ((truncated flags i w).inodeTable i).nr = (w.inodeTable i).nr :=
    congrArg Prod.snd (congrFun halike.key i)
  refine ⟨slot, d, (w.inodeTable i).nr.toNat, hfd, freeFd_none hslot,
    openedAt_none.mpr (freeDesc_none hdesc), ?_, ?_, hcreat, fun hne => ?_⟩
  · rw [(alike_same hsame).refs, refs_slot (s := truncated flags i w) rfl rfl]
    dsimp only
    rw [halike.refs, hslots]
  · rw [openedAt_same hsame, openedAt_connect, htrunc, hnr]
  · rw [hnumber hne]

/-- The number of the file behind a slot. -/
theorem fileOf_slot {slot : Fin NR_FILES} {d : Fin NR_FILE_DESC} {o : Opened}
    (hslot : (refs t).slot (p, slot) = some d) (ho : openedAt t d = some o) :
    fileOf t p slot.val = some o.nr := by
  rw [openedAt] at ho
  obtain ⟨i, hi, rfl⟩ := Option.map_eq_some_iff.mp ho
  rw [fileOf, slotOf_slot, hslot, Option.bind_some, hi]
  rfl

end Open

/-! ## FS_UNLINK and FS_STAT -/

section Back

variable {s t : Fs} {p : Pid} {pathname : List Byte} {ret : Int}

/-- What was taken is given back. -/
theorem openedAt_back {w u : Fs} {i : Fin NR_INODE} {dev nr : Int}
    (hs : Counted s) (hobt : Obtained s dev nr i w) (h : Alike (lessUsed i w) u)
    (hdescs : u.fileDescTable = w.fileDescTable) : openedAt u = openedAt s := by
  have htaken := taken_obtained hs hobt
  have hw : openedAt w = openedAt s := by
    refine openedAt_taken hs htaken (fun hused => ?_) (by cases hobt <;> rfl)
    cases hobt with
    | cached hc => exact (cached_some hc).2
    | loaded _ _ hfree _ => exact absurd (freeInode_zero hfree) hused
  have hless : openedAt (lessUsed i w) = openedAt w := by
    refine openedAt_congr rfl fun _ j _ => ?_
    have hkey : key (lessUsed i w) j = key w j := by
      rw [lessUsed, key_updInode]
      exact congrFun (Function.update_eq_self i (key w)) j
    exact congrArg Prod.snd hkey
  have hu : openedAt u = openedAt (lessUsed i w) := openedAt_alike hdescs h
  exact hu.trans (hless.trans hw)

theorem stat_slots {st : Stat} (hs : Counted s)
    (h : doStat pathname s = .ok (some st) t) :
    (refs t).slot = (refs s).slot ∧ openedAt t = openedAt s := by
  obtain ⟨-, i, w, hobt, hsame⟩ := doStat_tables h
  exact ⟨(counted_stat hs h).2,
    openedAt_back hs hobt (alike_same hsame) hsame.descs⟩

theorem unlink_slots (hs : Counted s) (hret : ret ≠ -1)
    (h : doUnlink pathname s = .ok ret t) :
    (refs t).slot = (refs s).slot ∧ openedAt t = openedAt s := by
  refine ⟨(counted_unlink hs hret h).1.2, ?_⟩
  obtain ⟨-, i, w, size, hobt, -, hsame⟩ := (doUnlink_tables h).resolve_left hret
  have hemptied : Alike w (w.updInode i emptied) :=
    alike_updInode fun _ => ⟨rfl, rfl, rfl⟩
  have hsized : Alike (lessUsed i (w.updInode i emptied))
      (sized s.rootInode size (lessUsed i (w.updInode i emptied))) :=
    alike_updInode fun _ => ⟨rfl, rfl, rfl⟩
  exact openedAt_back hs hobt
    (alike_trans (alike_trans (alike_lessUsed hemptied) hsized)
      (alike_same hsame)) hsame.descs

end Back

/-! ## FS_LSEEK, FS_READ, FS_WRITE and FS_STAT -/

section Files

variable {s t : Fs} {p : Pid} {fd ret : Int} {pathname : List Byte}

/-- Where `do_lseek` moves to. -/
theorem seekPos_eq {pos fSize off whence : Int}
    (h : seekPos pos fSize off whence s = .ok (some ret) t) :
    whence = SEEK_SET ∧ ret = off ∨ whence = SEEK_CUR ∧ ret = pos + off ∨
      whence = SEEK_END ∧ ret = fSize + off := by
  rw [seekPos] at h
  split at h
  · rename_i hset
    cases h
    exact Or.inl ⟨hset, rfl⟩
  · split at h
    · rename_i hcur
      obtain ⟨v, hv, hret⟩ := KosRefusals.run_map.mp h
      cases hret
      obtain ⟨-, hsum, -⟩ := run_intAdd.mp hv
      exact Or.inr (Or.inl ⟨hcur, hsum.symm⟩)
    · split at h
      · rename_i hend
        obtain ⟨v, hv, hret⟩ := KosRefusals.run_map.mp h
        cases hret
        obtain ⟨-, hsum, -⟩ := run_intAdd.mp hv
        exact Or.inr (Or.inr ⟨hend, hsum.symm⟩)
      · cases h

/-- **`do_lseek`** returns the position it moves to. -/
theorem lseek_done {off whence : Int} (hret : ret ≠ -1)
    (h : doLseek p.val fd off whence s = .ok ret t) :
    ∃ d i, Behind s p.val fd d i ∧ 0 ≤ ret ∧
      ret ≤ (s.inodeTable i).fileSize.toInt ∧
      (whence = SEEK_SET ∧ ret = off ∨
        whence = SEEK_CUR ∧ ret = (s.fileDescTable d).pos + off ∨
        whence = SEEK_END ∧ ret = (s.inodeTable i).fileSize.toInt + off) ∧
      t = s.updDesc d fun f => { f with pos := ret } := by
  obtain ⟨k, _, hk, h⟩ := run_bind.mp h
  obtain rfl := fdSlot_same hk
  rw [run_get_bind, fdSlot_slot hk] at h
  cases hd : slotOf s p.val fd with
  | none =>
      rw [hd] at h
      cases h
  | some d =>
      rw [hd] at h
      dsimp only at h
      cases hi : (s.fileDescTable d).inode with
      | none =>
          rw [hi] at h
          cases h
      | some i =>
          rw [hi] at h
          obtain ⟨target, _, hseek, h⟩ := run_bind.mp h
          obtain rfl := KosRefusals.seekPos_state hseek
          cases target with
          | none =>
              cases h
              exact absurd rfl hret
          | some pos =>
              dsimp only at h
              split at h
              · cases h
                exact absurd rfl hret
              · rename_i hrange
                obtain ⟨_, u, hmod, h⟩ := run_bind.mp h
                obtain rfl := run_modify.mp hmod
                cases h
                exact ⟨d, i, ⟨hd, hi⟩, by omega, by omega, seekPos_eq hseek, rfl⟩

/-- **`do_close`** gives up the slot, and answers 0. -/
theorem close_done (h : doClose p.val fd s = .ok ret t) :
    ∃ (slot : Fin NR_FILES) (d : Fin NR_FILE_DESC) (i : Fin NR_INODE),
      (refs s).slot (p, slot) = some d ∧ (refs s).target d = some i ∧
      fd = slot.val ∧ ret = 0 ∧ t = gaveUp p.val slot d i s := by
  obtain ⟨slot, _, hk, h⟩ := run_bind.mp h
  obtain rfl := fdSlot_same hk
  have hfd : fd = slot.val := by
    rw [fdSlot] at hk
    split at hk
    · rename_i hindex
      cases hk
      exact (Int.toNat_of_nonneg hindex.2).symm
    · cases hk
  rw [run_get_bind] at h
  cases hd : s.fileDesc p.val slot with
  | none =>
      rw [hd] at h
      cases h
  | some d =>
      rw [hd] at h
      dsimp only at h
      cases hi : (s.fileDescTable d).inode with
      | none =>
          rw [hi] at h
          cases h
      | some i =>
          rw [hi] at h
          obtain ⟨_, u, hput, h⟩ := run_bind.mp h
          obtain ⟨-, rfl⟩ := putInode_tables hput
          cases h
          exact ⟨slot, d, i, hd, hi, hfd, rfl, rfl⟩

/-- **`do_read_write`** refuses, or is about a terminal or a file. -/
theorem readWrite_done {io : Io} {len : Int} {reply r : Int × (Nat → Byte)}
    {buf : Nat → Byte} (h : doReadWrite io p.val fd len reply buf s = .ok r t) :
    ∃ d, slotOf s p.val fd = some d ∧
      ((s.fileDescTable d).mode &&& O_RDWR = 0 ∧ s = t ∧ r = (0, buf) ∨
        (s.fileDescTable d).mode &&& O_RDWR ≠ 0 ∧
          ∃ i, (s.fileDescTable d).inode = some i ∧
            ((s.inodeTable i).fileType &&& TYPE_MASK = TYPE_SPECIAL_CHAR ∨
              doReadWriteRegular io i d len buf s = .ok r t)) := by
  obtain ⟨k, _, hk, h⟩ := run_bind.mp h
  obtain rfl := fdSlot_same hk
  rw [run_get_bind, fdSlot_slot hk] at h
  cases hd : slotOf s p.val fd with
  | none =>
      rw [hd] at h
      cases h
  | some d =>
      rw [hd] at h
      dsimp only at h
      refine ⟨d, rfl, ?_⟩
      split at h
      · rename_i hmode
        cases h
        exact Or.inl ⟨hmode, rfl, rfl⟩
      · rename_i hmode
        cases hi : (s.fileDescTable d).inode with
        | none =>
            rw [hi] at h
            cases h
        | some i =>
            rw [hi] at h
            dsimp only at h
            refine Or.inr ⟨hmode, i, rfl, ?_⟩
            split at h
            · rename_i hchar
              exact Or.inl hchar
            · exact Or.inr h

/-- **`do_stat`** answers with the inode of the number, and leaves the disk as it
    is. -/
theorem stat_done {st : Stat} (h : doStat pathname s = .ok (some st) t) :
    t.disk = s.disk ∧ ∃ i w, Obtained s (s.inodeTable s.rootInode).dev
        (numberOf s (pathname.takeWhile (· ≠ 0))) i w ∧
      SameTables (lessUsed i w) t ∧ st = statOf (w.inodeTable i) := by
  obtain ⟨_, _, hcheck, h⟩ := run_bind.mp h
  obtain ⟨-, rfl⟩ := run_check.mp hcheck
  obtain ⟨nr, s₁, hrun, h⟩ := run_bind.mp h
  obtain ⟨⟨g, rfl⟩, -⟩ := KosFileNames.run_getFileInodeNr hrun
  obtain rfl := KosRefusals.getFileInodeNr_number hrun
  by_cases hnr : numberOf s (pathname.takeWhile (· ≠ 0)) = INVALID_INODE
  · rw [if_pos hnr] at h
    cases h
  rw [if_neg hnr] at h
  cases hname : KosFileNames.getFileName (pathname.takeWhile (· ≠ 0)) with
  | none =>
      rw [hname] at h
      cases h
  | some name =>
      rw [hname] at h
      dsimp only at h
      rw [run_get_bind] at h
      obtain ⟨q, s₂, hget, h⟩ := run_bind.mp h
      have hdisk : s₂.disk = s.disk := by
        obtain ⟨i, -, ⟨-, rfl⟩ | ⟨-, -, sb, -, -, rfl⟩⟩ := run_getFileInode hnr hget <;>
          rfl
      obtain ⟨i, w, rfl, hobt, hw⟩ := getFileInode_tables hnr hget
      dsimp only at h
      rw [run_get_bind] at h
      obtain ⟨_, s₃, hput, h⟩ := run_bind.mp h
      obtain ⟨-, rfl⟩ := putInode_tables hput
      cases h
      obtain ⟨v, hv, hvw⟩ := obtained_fsbuf hobt
      have hsame := same_trans hvw hw
      exact ⟨hdisk, i, v, hv, same_updInode hsame i _, by rw [hsame.inodes]⟩

end Files

end KosOpenFiles
