import Kos.DirectorySearchProofs
import Kos.OpenFilesProofs
import Kos.StoreContentsProofs

/-! # The requests and the store

    What FS answers to a request is what the store answers.

    * `StandsFor` relates the state of FS, with its tables and its disk, to a
      store;
    * each request that is `allowed` and done is one that the store serves, with
      the same reply, and what FS is then in stands for the store afterwards
      (`request_served`). -/

namespace KosStoreSteps

open FlatMemory (Byte)
open Overlay
open KosFs
open KosMkfs
open KosFileNames
open KosReadWrite
open KosOpenFile
open KosUnlink
open KosRequests
open KosRootDirectory
open KosRefusals (numberOf)
open KosDescriptor (slotOf Behind)
open KosTables
open KosInitFs (superAt)
open KosFresh (superAt_congr)
open KosBounds (cut)
open KosRequestCounts
open KosReferenceCounts (succeeded request_iff)
open KosDiskImage
open KosDiskSteps
open KosDiskRegions
open KosDiskRequests
open KosFileMaps
open KosMapRuns (Inv FileOpened fileOf root_facts number_unused inv_openOld
  inv_openNew inv_close inv_lseek inv_readWrite inv_unlink consistent_becomes)
open KosDirectoryMap
open KosDirectorySearch
open KosFileStore
open KosOpenFiles
open KosStoreContents

/-- A request, and what the process gets back. -/
def serve (p : Pid) : Request → FsM Reply
  | .readWrite io fd len reply buf => do
      let r ← doReadWrite io p.val fd len reply buf
      pure { ret := r.1, bytes := r.2 }
  | .stat pathname => do
      let r ← doStat pathname
      pure { ret := if r.isSome then 0 else -1, stat := r }
  | req => do
      let ret ← handle p.val req
      pure { ret := ret }

/-- The requests of the runs: files are created with names of at most 11
    characters, the root directory is not truncated and what is written to or
    positioned is a regular file, transfers end inside the file or its sectors,
    and a removal leaves no entry behind the end of the directory. -/
def allowed (sb : SuperBlock) (s : Fs) (p : Pid) : Request → Prop
  | .open pathname flags =>
      (numberOf s (pathname.takeWhile (· ≠ 0)) = INVALID_INODE →
        ∀ name, getFileName (pathname.takeWhile (· ≠ 0)) = some name →
          name.length ≤ 11) ∧
      (numberOf s (pathname.takeWhile (· ≠ 0)) = ROOT_INODE_NR →
        flags &&& O_TRUNC = 0)
  | .lseek fd _ _ => ∀ d i, Behind s p.val fd d i →
      (s.inodeTable i).fileType = TYPE_REGULAR
  | .readWrite io fd len _ _ => ∀ d i, Behind s p.val fd d i →
      (s.inodeTable i).fileType = TYPE_REGULAR ∧
        ((s.fileDescTable d).mode &&& O_RDWR ≠ 0 → 0 ≤ len ∧
          (s.fileDescTable d).pos + len ≤ (limit io (s.inodeTable i)).toNat)
  | .unlink pathname => Covered sb s (pathname.takeWhile (· ≠ 0))
  | _ => True

/-- **THE STORE** that a state of FS stands for. -/
structure StandsFor (sb : SuperBlock) (s : Fs) (a : Store) : Prop where
  inv : Inv sb a.live s
  super : superAt (drop (s.disk ROOT_DEV_NR) 512) ROOT_DEV_NR = sb
  names : Names (imageIn sb s) a.files
  contents : Contents (imageIn sb s) (s.disk ROOT_DEV_NR) a.live a
  slots : a.slots = (refs s).slot
  opened : a.opened = openedAt s

section Facts

variable {sb : SuperBlock} {s t : Fs} {a : Store} {p : Pid} {path : List Byte}
  {n : Nat} {req : Request} {reply : Reply}

theorem serve_handle (h : serve p req s = .ok reply t) :
    handle p.val req s = .ok reply.ret t := by
  cases req with
  | readWrite io fd len answer buf =>
      obtain ⟨r, u, hr, h⟩ := run_bind.mp h
      cases h
      exact run_bind.mpr ⟨r, _, hr, rfl⟩
  | stat pathname =>
      obtain ⟨r, u, hr, h⟩ := run_bind.mp h
      cases h
      exact run_bind.mpr ⟨r, _, hr, rfl⟩
  | «open» pathname flags =>
      obtain ⟨ret, u, hr, h⟩ := run_bind.mp h
      cases h
      exact hr
  | close fd =>
      obtain ⟨ret, u, hr, h⟩ := run_bind.mp h
      cases h
      exact hr
  | lseek fd off whence =>
      obtain ⟨ret, u, hr, h⟩ := run_bind.mp h
      cases h
      exact hr
  | unlink pathname =>
      obtain ⟨ret, u, hr, h⟩ := run_bind.mp h
      cases h
      exact hr

/-- The super block is in front of everything that changes. -/
theorem super_kept (h : superAt (drop (s.disk ROOT_DEV_NR) 512) ROOT_DEV_NR = sb)
    (hkept : ∀ x < 1024, t.disk ROOT_DEV_NR x = s.disk ROOT_DEV_NR x) :
    superAt (drop (t.disk ROOT_DEV_NR) 512) ROOT_DEV_NR = sb := by
  rw [← h]
  refine superAt_congr _ fun y hy => ?_
  rw [drop, drop]
  exact hkept _ (by omega)

/-- A state with the same disk stands for a store with the same files. -/
theorem standsFor_disk (hs : StandsFor sb s a) {b : Store} (ht : Inv sb a.live t)
    (hdisk : t.disk = s.disk) (hlive : b.live = a.live) (hfiles : b.files = a.files)
    (hsize : b.size = a.size) (hbytes : b.bytes = a.bytes)
    (hslots : b.slots = (refs t).slot) (hopened : b.opened = openedAt t) :
    StandsFor sb t b := by
  have himage : imageIn sb t = imageIn sb s := by
    rw [imageIn, imageIn, hdisk]
  refine ⟨hlive ▸ ht, ?_, ?_, ?_, hslots, hopened⟩
  · rw [hdisk]
    exact hs.super
  · rw [himage, hfiles]
    exact hs.names
  · rw [himage, hdisk, hlive]
    refine ⟨?_, ?_⟩
    · rw [hsize]
      exact hs.contents.size
    · rw [hbytes]
      exact hs.contents.bytes

/-- **THE NUMBER** of a path. -/
theorem numberOf_store (hfits : Fits sb) (hs : StandsFor sb s a)
    (hnul : 0 ∉ path) : numberOf s path = numberIn (a.numberOf path) := by
  rw [Store.numberOf]
  cases hname : getFileName path with
  | none =>
      rw [numberOf, hname]
      rfl
  | some name =>
      cases name with
      | nil => exact numberOf_empty hs.inv hname
      | cons c l =>
          exact numberOf_files hfits hs.inv hs.names hnul hname
            (List.cons_ne_nil c l)

theorem live_of_number (hs : StandsFor sb s a) (hn : a.numberOf path = some n) :
    n ∈ a.live ∧ n ≠ 0 := by
  rw [Store.numberOf] at hn
  cases hname : getFileName path with
  | none =>
      rw [hname] at hn
      cases hn
  | some name =>
      rw [hname] at hn
      cases name with
      | nil =>
          cases hn
          exact ⟨hs.inv.files.maps.root, Nat.one_ne_zero⟩
      | cons c l => exact live_of_file hs.inv hs.names hn

end Facts

/-! ## FS_OPEN -/

section Open

variable {sb : SuperBlock} {s t : Fs} {a : Store} {p : Pid}
  {pathname : List Byte} {flags : BitVec 32} {ret : Int} {n : Nat}

/-- The directory has its names, unless it is truncated itself. -/
theorem names_opened {m : Image} {files : List Byte → Option Nat} {q : Inode}
    (h : Names m files) (hq : m.inode n = asStored n q)
    (hroot : n = 1 → flags &&& O_TRUNC = 0) :
    Names (m.setInode n (cut flags q)) files := by
  by_cases hn : n = 1
  · rw [cut, if_pos (hroot hn), setInode_self hq]
    exact h
  · have hentries : entries (m.setInode n (cut flags q)) = entries m := by
      rw [entries, entries, setInode_other m (Ne.symm hn)]
    exact ⟨hentries ▸ h.tidy, hentries ▸ h.table⟩

theorem open_served (hfits : Fits sb) (hs : StandsFor sb s a)
    (hallowed : allowed sb s p (.open pathname flags)) (hret : ret ≠ -1)
    (hrun : doOpen p.val pathname flags s = .ok ret t) (hc : Counted t) :
    ∃ b, Serves a (.request p (.open pathname flags) { ret := ret }) b ∧
      StandsFor sb t b := by
  obtain ⟨hlen, hroot⟩ := hallowed
  obtain ⟨path, hpath⟩ : ∃ path, path = pathname.takeWhile (· ≠ 0) := ⟨_, rfl⟩
  have hnul : 0 ∉ path := hpath ▸ path_chars pathname
  obtain ⟨slot, d, n, hfd, hslot, hd, hslots, hopened, hcreat, hnumber⟩ :=
    open_slots hs.inv.counted (number_unused hs.inv.kept _ flags) hret hrun
  have hstore := numberOf_store hfits hs hnul
  rw [← hpath] at hlen hroot hcreat hnumber
  rw [← hs.slots] at hslot hslots
  rw [← hs.opened] at hd hopened
  cases hno : a.numberOf path with
  | some j =>
      rw [hno, show numberIn (some j) = j from rfl] at hstore
      obtain ⟨hlive, hj0⟩ := live_of_number hs hno
      have hnj : n = j := by
        rw [hnumber (by rw [hstore, show INVALID_INODE = 0 from rfl]; omega),
          hstore, Int.toNat_natCast]
      subst hnj
      obtain ⟨⟨q, hq, himage, hkept⟩, ht⟩ := inv_openOld hfits hs.inv hlive
        (hpath ▸ hstore) hret hrun hc
      have hserves : Serves a (.request p (.open pathname flags) { ret := ret })
          ((a.truncate flags n).attach (p, slot) d ⟨n, 0, flags⟩) := by
        rw [hfd]
        exact .opens (hpath ▸ hno) hslot hd
      refine ⟨_, hserves, ?_, super_kept hs.super fun x hx => hkept x (Or.inl hx), ?_, ?_, ?_, ?_⟩
      · rw [Store.attach, truncate_live]
        exact ht
      · rw [himage, Store.attach, truncate_files]
        refine names_opened hs.names hq fun h1 => hroot ?_
        rw [hstore, h1]
        rfl
      · have hcut := contents_cut hfits hs.inv.files.maps hs.contents hq flags
          fun x hx => hkept x (Or.inr hx)
        rw [himage, Store.attach, truncate_live]
        exact ⟨hcut.size, hcut.bytes⟩
      · rw [Store.attach, truncate_slots]
        exact hslots.symm
      · rw [Store.attach, truncate_opened]
        exact hopened.symm
  | none =>
      have hnr : numberOf s path = INVALID_INODE := by
        rw [hstore, hno]
        rfl
      have hlen' := hlen hnr
      obtain ⟨b, hb, hnew, ht⟩ := inv_openNew hfits hs.inv (hpath ▸ hlen')
        (hpath ▸ hnr) hret hrun hc
      rw [← hpath] at hnew
      -- the number is that of the open file
      have hbn : b = n := by
        rw [hfd, fileOf_slot (d := d) (o := ⟨n, 0, flags⟩)
          (by rw [hslots, Function.update_self])
          (by rw [hopened, Function.update_self])] at hb
        exact (Option.some.inj hb).symm
      subst hbn
      obtain ⟨name, β, k, free, i, hname, hroom, hset, himage, hkept⟩ := hnew
      have hnew := names_created hfits hs.inv hs.names hnr hnul hlen' hname
        ⟨name, β, k, free, i, hname, hroom, hset, himage, hkept⟩
      obtain ⟨-, hfresh, -⟩ :=
        free_pos hs.inv.files.maps hroom.inodeClear hroom.sectsClear
      have hcontents := contents_create hfits hs.inv.files.maps
        (himage ▸ ht.files.maps) hs.contents hfresh rfl
        fun x hx => hkept x (Or.inr hx)
      rw [← himage] at hcontents
      have hserves (g : Nat → Byte) : Serves a
          (.request p (.open pathname flags) { ret := ret })
          ((a.create name b g).attach (p, slot) d ⟨b, 0, flags⟩) := by
        rw [hfd]
        exact .creates (hpath ▸ hno) (hpath ▸ hname) (hcreat hnr) hfresh hslot hd
      exact ⟨_, hserves _, ht, super_kept hs.super fun x hx => hkept x (Or.inl hx),
        hnew, ⟨hcontents.size, hcontents.bytes⟩, hslots.symm, hopened.symm⟩

end Open

/-! ## FS_CLOSE, FS_LSEEK and FS_STAT -/

section Tables

variable {sb : SuperBlock} {s t : Fs} {a : Store} {p : Pid} {fd ret : Int}
  {pathname : List Byte}

theorem openedAt_gaveUp {slot : Fin NR_FILES} {d : Fin NR_FILE_DESC}
    {i : Fin NR_INODE} (e : Fin NR_FILE_DESC)
    (h : openedAt (gaveUp p.val slot d i s) e ≠ none) :
    openedAt (gaveUp p.val slot d i s) e = openedAt s e := by
  have htable : (gaveUp p.val slot d i s).fileDescTable e =
      if e = d then dropDesc (s.fileDescTable d) else s.fileDescTable e :=
    Function.update_apply ..
  have hnr : ∀ j, ((gaveUp p.val slot d i s).inodeTable j).nr =
      (s.inodeTable j).nr := by
    intro j
    have hkey : key (lessUsed i s) j = key s j := by
      rw [lessUsed, key_updInode]
      exact congrFun (Function.update_eq_self i (key s)) j
    exact congrArg Prod.snd hkey
  rw [openedAt, htable] at h ⊢
  simp only [hnr] at h ⊢
  split at h
  · rename_i he
    rw [dropDesc] at h ⊢
    rw [if_pos he, openedAt, he]
    dsimp only at h ⊢
    by_cases hzero : (s.fileDescTable d).cnt - 1 = 0
    · rw [if_pos hzero] at h
      exact absurd rfl h
    · rw [if_neg hzero]
  · rename_i he
    rw [if_neg he, openedAt]

/-- A slot is given up. -/
theorem close_served (hs : StandsFor sb s a)
    (hrun : doClose p.val fd s = .ok ret t) (hc : Counted t) :
    ∃ b, Serves a (.request p (.close fd) { ret := ret }) b ∧ StandsFor sb t b := by
  have ht := inv_close hs.inv hrun hc
  obtain ⟨slot, d, i, hslot, hd, hfd, hret, htable⟩ := close_done hrun
  have hslots : (refs t).slot = Function.update a.slots (p, slot) none := by
    rw [hs.slots, htable, refs_gaveUp]
    rfl
  have hserves : Serves a (.request p (.close fd) { ret := ret })
      (a.keep (Function.update a.slots (p, slot) none)) := by
    rw [hfd, hret]
    refine .closes (d := d) ?_
    rw [hs.slots]
    exact hslot
  refine ⟨_, hserves, standsFor_disk hs ht (by rw [htable]; rfl) rfl rfl rfl rfl
    hslots.symm ?_⟩
  have hkeep := openedAt_keep (s := s) hc fun e he => by
    rw [htable] at he ⊢
    exact openedAt_gaveUp e he
  rw [hkeep, hslots, Store.keep, hs.opened]

/-- A regular file that a process has open. -/
theorem open_file (hs : StandsFor sb s a) {d : Fin NR_FILE_DESC}
    {i : Fin NR_INODE} (hbehind : Behind s p.val fd d i)
    (htype : (s.inodeTable i).fileType = TYPE_REGULAR) :
    ∃ (slot : Fin NR_FILES) (n pos : Nat), fd = slot.val ∧
      a.Has (p, slot) d ⟨n, pos, (s.fileDescTable d).mode⟩ ∧
      At sb a.live s d i n pos ∧ (s.inodeTable i).fileSize.toNat = a.size n := by
  obtain ⟨n, pos, hat⟩ := openFile_of_behind hs.inv hbehind htype
  obtain ⟨slot, hfd, hslot⟩ := slotOf_some hbehind.1
  refine ⟨slot, n, pos, hfd, ⟨?_, ?_⟩, hat, ?_⟩
  · rw [hs.slots]
    exact hslot
  · rw [hs.opened, openedAt_some hbehind.2, hat.nr, hat.pos, Int.toNat_natCast,
      Int.toNat_natCast]
  · rw [← hs.contents.size n hat.live (openFile_image hat).1, hat.stored]
    rfl

theorem lseek_served {off whence : Int} (hs : StandsFor sb s a)
    (hallowed : allowed sb s p (.lseek fd off whence)) (hret : ret ≠ -1)
    (hrun : doLseek p.val fd off whence s = .ok ret t) (hc : Counted t) :
    ∃ b, Serves a (.request p (.lseek fd off whence) { ret := ret }) b ∧
      StandsFor sb t b := by
  have ht := inv_lseek hs.inv hrun hc
  obtain ⟨d, i, hbehind, h0, hle, hseek, htable⟩ := lseek_done hret hrun
  obtain ⟨slot, n, pos, hfd, hhas, hat, hsize⟩ :=
    open_file hs hbehind (hallowed d i hbehind)
  obtain ⟨q, rfl⟩ := Int.eq_ofNat_of_zero_le h0
  -- a size that a position is not behind is no negative number
  have hint := BitVec.toInt_eq_toNat_cond (s.inodeTable i).fileSize
  have hnat : (s.inodeTable i).fileSize.toInt = a.size n := by
    rw [← hsize]
    split at hint <;> omega
  rw [hnat, hat.pos] at hseek
  rw [hnat] at hle
  have hto : seekTo whence pos (a.size n) off = some (q : Int) := by
    rw [seekTo]
    rcases hseek with ⟨rfl, h⟩ | ⟨rfl, h⟩ | ⟨rfl, h⟩
    · rw [if_pos rfl, h]
    · rw [if_neg (by decide), if_pos rfl, h]
    · rw [if_neg (by decide), if_neg (by decide), if_pos rfl, h]
  have hserves : Serves a (.request p (.lseek fd off whence) { ret := q })
      (a.move d ⟨n, pos, (s.fileDescTable d).mode⟩ q) := by
    rw [hfd]
    exact .seeks hhas hto (Int.ofNat_le.mp hle)
  refine ⟨_, hserves, standsFor_disk hs ht (by rw [htable]; rfl) rfl rfl rfl rfl
    ?_ ?_⟩
  · rw [Store.move, hs.slots, htable]
    rfl
  · have hopened := hhas.2
    rw [hs.opened] at hopened
    rw [Store.move, hs.opened, htable]
    exact (openedAt_move (f := fun e => { e with pos := (q : Int) }) hopened
      (fun _ => ⟨rfl, rfl⟩) (Int.toNat_natCast q)).symm

/-- **`do_stat`** has the maps as they are. -/
theorem inv_stat {live : Finset Nat} {i : Fin NR_INODE} {w : Fs} {n : Nat}
    (h : Inv sb live s) (hn : n ∈ live) (hobt : Obtained s ROOT_DEV_NR n i w)
    (hsame : SameTables (lessUsed i w) t) (hdisk : t.disk = s.disk)
    (hc : Counted t) : Inv sb live t := by
  have himage : imageIn sb t = imageIn sb s := by
    rw [imageIn, imageIn, hdisk]
  obtain ⟨h1, h2⟩ := h.files.maps.range n hn
  obtain ⟨hdev, hnr, hstored⟩ := obtained_inode h.super h1 (by omega)
    (fun j => KosMapRuns.cached_stored h.kept) hobt
  have hw := KosMapRuns.obtained_eq hobt
  refine ⟨(superOf_congr hsame.supers).trans ?_, hc, ?_⟩
  · rw [hw]
    exact h.super
  rw [himage]
  refine ⟨h.files.maps, h.files.listed, loaded_congr hsame ?_⟩
  obtain ⟨q, hq⟩ : ∃ q : Inode, q = { w.inodeTable i with
    cnt := (w.inodeTable i).cnt - 1 } := ⟨_, rfl⟩
  have hless : lessUsed i w = s.updInode i fun _ => q := by
    rw [hq, lessUsed, hw]
    simp only [Fs.updInode, Function.update_idem, Function.update_self]
  have hself : EntryOf (imageIn sb s) live q := by
    rw [hq]
    exact entry_self hn hdev hnr hstored
  rw [hless]
  refine loaded_update h.files.loaded rfl rfl rfl
    (KosMapRuns.obtained_others h.kept hobt) (fun j hj _ => hj) (fun _ _ _ => rfl)
    hself fun hi => ?_
  rw [hq]
  dsimp only
  rw [hnr, KosMapRuns.obtained_root h.kept hobt hi]
  rfl

theorem stat_served {st : Stat} (hfits : Fits sb) (hs : StandsFor sb s a)
    (hrun : doStat pathname s = .ok (some st) t) (hc : Counted t) :
    ∃ b, Serves a (.request p (.stat pathname) { ret := 0, stat := some st }) b ∧
      StandsFor sb t b := by
  obtain ⟨hslots, hopened⟩ := stat_slots hs.inv.counted hrun
  obtain ⟨hne, -⟩ := doStat_tables hrun
  obtain ⟨hdisk, i, w, hobt, hsame, hst⟩ := stat_done hrun
  have hstore := numberOf_store hfits hs (path_chars pathname)
  obtain ⟨hroot, -, -⟩ := root_facts hs.inv
  cases hn : a.numberOf (pathname.takeWhile (· ≠ 0)) with
  | none =>
      rw [hn] at hstore
      exact absurd hstore hne
  | some n =>
      rw [hn, show numberIn (some n) = n from rfl] at hstore
      rw [hstore, hroot.dev] at hobt
      obtain ⟨hlive, -⟩ := live_of_number hs hn
      obtain ⟨h1, h2⟩ := hs.inv.files.maps.range n hlive
      obtain ⟨-, hnr, hstored⟩ := obtained_inode hs.inv.super h1 (by omega)
        (fun j => KosMapRuns.cached_stored hs.inv.kept) hobt
      have hserves : Serves a
          (.request p (.stat pathname) { ret := 0, stat := some st }) a := by
        refine .stats hn (by rw [hst]; exact hnr) fun htype => ?_
        rw [hst] at htype ⊢
        rw [← hs.contents.size n hlive (by rw [hstored]; exact htype), hstored]
        rfl
      refine ⟨a, hserves, standsFor_disk hs
        (inv_stat hs.inv hlive hobt hsame hdisk hc) hdisk rfl rfl rfl rfl ?_ ?_⟩
      · rw [hslots]
        exact hs.slots
      · rw [hopened]
        exact hs.opened

end Tables

/-! ## FS_READ, FS_WRITE and FS_UNLINK -/

section Transfers

variable {sb : SuperBlock} {s t : Fs} {a : Store} {p : Pid} {fd len : Int}
  {answer r : Int × (Nat → Byte)} {buf : Nat → Byte} {io : Io}
  {d : Fin NR_FILE_DESC} {i : Fin NR_INODE} {n pos k : Nat}

/-- What a transfer leaves of the open files. -/
theorem openedAt_moved {o : Opened} (hd : openedAt s d = some o)
    (hpos : 0 ≤ (s.fileDescTable d).pos)
    (ho : o.pos = (s.fileDescTable d).pos.toNat)
    (hdescs : t.fileDescTable = Function.update s.fileDescTable d
      { s.fileDescTable d with pos := (s.fileDescTable d).pos + k })
    (halike : Alike s t) :
    openedAt t = Function.update (openedAt s) d
      (some { o with pos := o.pos + k }) := by
  have hmove := openedAt_move (f := fun e => { e with pos := e.pos + k }) hd
    (fun _ => ⟨rfl, rfl⟩) (show ((s.fileDescTable d).pos + k).toNat = o.pos + k by
      omega)
  rw [← hmove]
  refine openedAt_congr hdescs fun _ j _ => ?_
  exact congrArg Prod.snd (congrFun halike.key j)

/-- **A READ** inside the file. -/
theorem read_served (hs : StandsFor sb s a) (hat : At sb a.live s d i n pos)
    {slot : Fin NR_FILES}
    (hhas : a.Has (p, slot) d ⟨n, pos, (s.fileDescTable d).mode⟩)
    (hsize : (s.inodeTable i).fileSize.toNat = a.size n)
    (hmode : (s.fileDescTable d).mode &&& O_RDWR ≠ 0)
    (hend : pos + k ≤ (s.inodeTable i).fileSize.toNat)
    (hsmall : (s.inodeTable i).sectStart.toNat < 1073741824)
    (hbytes : (s.inodeTable i).fileSize.toNat ≤ FILE_BYTES)
    (hrun : doReadWriteRegular .read i d k buf s = .ok r t)
    (halike : Alike s t) (ht : Inv sb a.live t) :
    ∃ b, Serves a (.request p (.readWrite .read slot.val k answer buf)
        { ret := r.1, bytes := r.2 }) b ∧ StandsFor sb t b := by
  obtain ⟨hmoved, rfl⟩ := read_done hat hend
    (addressable_of_done rfl hat.pos hsmall
      (show pos + k ≤ (limit .read (s.inodeTable i)).toNat from hend) hrun) hrun
  obtain ⟨htype, hstart⟩ := openFile_image hat
  have hdisk : t.disk = s.disk := by
    rw [hmoved.disk, Function.update_eq_self]
  -- the bytes of the sectors are those of the store
  have hread : put buf 0 k (drop (s.disk ROOT_DEV_NR)
      (512 * (s.inodeTable i).sectStart.toNat + pos)) =
        put buf 0 k (drop (a.bytes n) pos) := by
    refine put_congr fun x hx => ?_
    rw [drop, drop, ← hstart, Nat.add_assoc]
    exact hs.contents.bytes n hat.live htype _ (by omega)
  have hserves : Serves a (.request p (.readWrite .read slot.val k answer buf)
      { ret := k, bytes := put buf 0 k (drop (a.bytes n) pos) })
      (a.move d ⟨n, pos, (s.fileDescTable d).mode⟩ (pos + k)) :=
    .reads hhas hmode (hsize ▸ hend)
  have hopened := hhas.2
  rw [hs.opened] at hopened
  rw [hread]
  refine ⟨_, hserves, standsFor_disk hs ht hdisk rfl rfl rfl rfl ?_ ?_⟩
  · rw [halike.refs]
    exact hs.slots
  · rw [Store.move, hs.opened]
    exact (openedAt_moved hopened (by rw [hat.pos]; omega)
      (by rw [hat.pos, Int.toNat_natCast]) hmoved.descs halike).symm

/-- **A WRITE** inside the sectors. -/
theorem write_served (hfits : Fits sb) (hs : StandsFor sb s a)
    (hat : At sb a.live s d i n pos) {slot : Fin NR_FILES}
    (hhas : a.Has (p, slot) d ⟨n, pos, (s.fileDescTable d).mode⟩)
    (hmode : (s.fileDescTable d).mode &&& O_RDWR ≠ 0)
    (hend : pos + k ≤ (limit .write (s.inodeTable i)).toNat)
    (hlimit : (limit .write (s.inodeTable i)).toNat = FILE_BYTES)
    (hsmall : (s.inodeTable i).sectStart.toNat < 1073741824)
    (hrun : doReadWriteRegular .write i d k buf s = .ok r t)
    (halike : Alike s t) (ht : Inv sb a.live t) :
    ∃ b, Serves a (.request p (.readWrite .write slot.val k answer buf)
        { ret := r.1, bytes := r.2 }) b ∧ StandsFor sb t b := by
  obtain ⟨hbehind, hfront, himage, htables, rfl⟩ := write_done hfits hs.inv hat hend
    (addressable_of_done rfl hat.pos hsmall hend hrun) hrun
  have hserves : Serves a (.request p (.readWrite .write slot.val k answer buf)
      { ret := k, bytes := buf })
      ((a.write n pos k buf).move d ⟨n, pos, (s.fileDescTable d).mode⟩ (pos + k)) :=
    .writes hhas hmode (hlimit ▸ hend)
  have hopened := hhas.2
  rw [hs.opened] at hopened
  have hn1 : n ≠ 1 := regular_ne hs.inv.files.maps hat.live (openFile_image hat).1
  have hcontents := contents_write buf hfits hs.inv.files.maps hs.contents
    hat.live hat.stored hat.regular (hlimit ▸ hend) hbehind
  refine ⟨_, hserves, ht, super_kept hs.super hfront, ?_, ?_, ?_, ?_⟩
  · have hentries : entries (imageIn sb t) = entries (imageIn sb s) := by
      rw [himage, entries, entries, setInode_other _ (Ne.symm hn1)]
    have hdir : (imageIn sb t).dir = (imageIn sb s).dir := by
      rw [himage]
      rfl
    refine ⟨?_, ?_⟩ <;> rw [hentries, hdir]
    · exact hs.names.tidy
    · exact hs.names.table
  · rw [himage]
    exact ⟨hcontents.size, hcontents.bytes⟩
  · rw [halike.refs]
    exact hs.slots
  · have hdescs : t.fileDescTable = Function.update s.fileDescTable d
        { s.fileDescTable d with pos := (s.fileDescTable d).pos + k } := by
      rw [htables.descs, extended]
      dsimp only
      split <;> rfl
    rw [Store.move, Store.write, hs.opened]
    exact (openedAt_moved hopened (by rw [hat.pos]; omega)
      (by rw [hat.pos, Int.toNat_natCast]) hdescs halike).symm

theorem readWrite_served (hfits : Fits sb) (hs : StandsFor sb s a) (hsizes : a.Small)
    (hallowed : allowed sb s p (.readWrite io fd len answer buf))
    (hrun : doReadWrite io p.val fd len answer buf s = .ok r t) (hc : Counted t) :
    ∃ b, Serves a (.request p (.readWrite io fd len answer buf)
        { ret := r.1, bytes := r.2 }) b ∧ StandsFor sb t b := by
  have ht := inv_readWrite hfits hs.inv (fun d i hb => (hallowed d i hb).1) hrun hc
  have halike := alike_readWrite hrun
  obtain ⟨d, hslotOf, hcases⟩ := readWrite_done hrun
  obtain ⟨slot, hfd, hslot⟩ := slotOf_some hslotOf
  obtain ⟨i, hi⟩ := target_of_slot hs.inv.counted hslot
  obtain ⟨hregular, hrange⟩ := hallowed d i ⟨hslotOf, hi⟩
  obtain ⟨slot', n, pos, hfd', hhas, hat, hsize⟩ :=
    open_file hs ⟨hslotOf, hi⟩ hregular
  have hslots : slot' = slot := Fin.ext (by omega)
  subst hslots
  rcases hcases with ⟨hmode, rfl, rfl⟩ | ⟨hmode, j, hj, hdone⟩
  · have hserves : Serves a (.request p (.readWrite io fd len answer buf)
        { ret := 0, bytes := buf }) a := by
      rw [hfd]
      exact .refuses hhas hmode
    exact ⟨a, hserves, hs⟩
  rw [show (s.fileDescTable d).inode = some i from hi] at hj
  cases hj
  rw [hregular] at hdone
  have hdone := hdone.resolve_left (by decide)
  obtain ⟨h0, hend⟩ := hrange hmode
  obtain ⟨k, rfl⟩ := Int.eq_ofNat_of_zero_le h0
  rw [hat.pos] at hend
  obtain ⟨htype, hstart⟩ := openFile_image hat
  obtain ⟨-, hdata⟩ := regular_inData (hs.inv.files.maps.kind n hat.live) htype
  have hsmall := (behind_root hfits hs.inv.files.maps hat.live htype).2
  rw [hstart] at hsmall
  have hlimit : (limit .write (s.inodeTable i)).toNat = FILE_BYTES := by
    have hsects := hdata.sects
    rw [hat.stored] at hsects
    rw [limit, show (s.inodeTable i).nrSects = _ from hsects]
    rfl
  rw [hfd]
  cases io with
  | read =>
      exact read_served hs hat hhas hsize hmode (by exact_mod_cast hend) hsmall
        (hsize ▸ hsizes n) hdone halike ht
  | write =>
      exact write_served hfits hs hat hhas hmode (by exact_mod_cast hend) hlimit
        hsmall hdone halike ht

end Transfers

section Unlink

variable {sb : SuperBlock} {s t : Fs} {a : Store} {p : Pid} {ret : Int}
  {pathname : List Byte}

theorem unlink_served (hfits : Fits sb) (hs : StandsFor sb s a)
    (hallowed : allowed sb s p (.unlink pathname)) (hret : ret ≠ -1)
    (hrun : doUnlink pathname s = .ok ret t) (hc : Counted t) :
    ∃ b, Serves a (.request p (.unlink pathname) { ret := ret }) b ∧
      StandsFor sb t b := by
  obtain ⟨hroot, -, -⟩ := root_facts hs.inv
  obtain ⟨rfl, -, -⟩ := unlink_parts sb hroot.dev hret hrun
  obtain ⟨hslots, hopened⟩ := unlink_slots hs.inv.counted hret hrun
  obtain ⟨-, hclosed⟩ := counted_unlink hs.inv.counted hret hrun
  obtain ⟨n, hnr, hn1, hgone, ht⟩ := inv_unlink hfits hs.inv hret hrun hc
  obtain ⟨name, hname, -, hfile⟩ := name_of_number hfits hs.inv hs.names
    (path_chars pathname) hnr hn1
  have hserves : Serves a (.request p (.unlink pathname) { ret := 0 })
      (a.remove name n) := by
    refine .removes hname hfile fun d o ho hon => ?_
    rw [hs.opened, openedAt] at ho
    obtain ⟨i, hi, rfl⟩ := Option.map_eq_some_iff.mp ho
    have hused := RefCount.exact_used hs.inv.counted.exact (atRoot_nonneg s) hi
    obtain ⟨hdev, j, -, hj, -⟩ := hs.inv.files.loaded.entry i (by
      have hcnt : 0 < (s.inodeTable i).cnt := hused
      omega)
    refine hclosed d i hi (Prod.ext (hdev.trans hroot.dev.symm) ?_)
    rw [hj, Int.toNat_natCast] at hon
    rw [hnr, ← hon]
    exact hj
  have hnames := names_removed hs.inv hs.names hnr hfile hallowed hgone
  obtain ⟨β, k, q, -, -, himage, hkept⟩ := hgone
  have hcontents := contents_remove hfits hs.inv.files.maps
    (himage ▸ ht.files.maps) hs.contents (fun x hx => hkept x (Or.inr hx)) name
  rw [← himage] at hcontents
  refine ⟨_, hserves, ht, super_kept hs.super fun x hx => hkept x (Or.inl hx), hnames,
    hcontents, ?_, ?_⟩
  · rw [hslots]
    exact hs.slots
  · rw [hopened]
    exact hs.opened

end Unlink

/-- **A REQUEST** that is done is one that the store serves, with the same
    reply. -/
theorem request_served {sb : SuperBlock} {s t : Fs} {a : Store} {p : Pid}
    {req : Request} {reply : Reply} (hfits : Fits sb) (hs : StandsFor sb s a)
    (hsizes : a.Small) (hallowed : allowed sb s p req)
    (hok : succeeded req reply.ret) (hrun : serve p req s = .ok reply t) :
    ∃ b, Serves a (.request p req reply) b ∧ StandsFor sb t b := by
  have hcounts := (request_iff (s := ⟨s, fun _ => true⟩) hs.inv.counted hok
    (serve_handle hrun)).1
  cases req with
  | «open» pathname flags =>
      obtain ⟨ret, u, hopen, h⟩ := run_bind.mp hrun
      cases h
      exact open_served hfits hs hallowed hok hopen
        (hcounts.mpr (number_unused hs.inv.kept _ flags))
  | close fd =>
      obtain ⟨ret, u, hclose, h⟩ := run_bind.mp hrun
      cases h
      exact close_served hs hclose (hcounts.mpr trivial)
  | lseek fd off whence =>
      obtain ⟨ret, u, hseek, h⟩ := run_bind.mp hrun
      cases h
      exact lseek_served hs hallowed hok hseek (hcounts.mpr trivial)
  | readWrite io fd len answer buf =>
      obtain ⟨r, u, hrw, h⟩ := run_bind.mp hrun
      cases h
      exact readWrite_served hfits hs hsizes hallowed hrw (hcounts.mpr trivial)
  | unlink pathname =>
      obtain ⟨ret, u, hunlink, h⟩ := run_bind.mp hrun
      cases h
      exact unlink_served hfits hs hallowed hok hunlink (hcounts.mpr trivial)
  | stat pathname =>
      obtain ⟨r, u, hstat, h⟩ := run_bind.mp hrun
      cases h
      cases r with
      | none => exact absurd rfl hok
      | some st => exact stat_served hfits hs hstat (hcounts.mpr trivial)

end KosStoreSteps
