import Kos.DirectoryMapProofs
import Kos.FileBytesProofs
import Kos.FileStoreProofs
import Kos.MapRunsProofs

/-! # The contents of files

    Where the bytes of the store are on the disk.

    * `Contents` is that the sizes and the bytes of the live regular inodes are
      those of the store;
    * a new file, one that is removed or cut, and other changes of the disk keep
      it (`contents_create`, `contents_remove`, `contents_cut`,
      `contents_kept`);
    * a write inside the sectors of a file is a write to the store
      (`contents_write`), and a read inside the file reads the store
      (`read_done`). -/

namespace KosStoreContents

open FlatMemory (Byte)
open Overlay
open FrameRule
open KosFs
open KosMkfs
open KosInodeArray (stored_of_made)
open KosFileNames
open KosReadWrite
open KosFileBytes (size_lt_pos)
open KosOpenFile
open KosSectorMap (mapSize)
open KosDescriptor (slotOf Behind)
open KosTables
open KosBounds (cut)
open KosRequestCounts
open KosDiskImage
open KosDiskSteps
open KosDiskRegions
open KosDiskRequests
open KosFileMaps
open KosMapRuns
open KosFileStore

/-- **THE CONTENTS** of the live regular inodes are those of the store. -/
structure Contents (m : Image) (f : Nat → Byte) (live : Finset Nat) (a : Store) :
    Prop where
  size : ∀ n ∈ live, (m.inode n).fileType = TYPE_REGULAR →
    (m.inode n).fileSize.toNat = a.size n
  bytes : ∀ n ∈ live, (m.inode n).fileType = TYPE_REGULAR → ∀ x < FILE_BYTES,
    f (512 * (m.inode n).sectStart.toNat + x) = a.bytes n x

section Contents

variable {sb : SuperBlock} {m m' : Image} {f f' : Nat → Byte} {a : Store}
  {live : Finset Nat} {n β k pos len : Nat} {p r : Inode} {name : List Byte}
  {buf : Nat → Byte}

/-- The sectors of a live file are behind the root directory. -/
theorem behind_dir (hfits : Fits sb) (h : Maps sb m live) (hn : n ∈ live)
    (htype : (m.inode n).fileType = TYPE_REGULAR) :
    dirByte sb + DIR_BYTES ≤ 512 * (m.inode n).sectStart.toNat := by
  have hstart := (behind_root hfits h hn htype).1
  rw [dirByte, DIR_BYTES, SECTOR_SIZE, NR_FILE_SECTS]
  omega

/-- The sectors of two live files are apart. -/
theorem extents_apart (h : Maps sb m live) {j : Nat} (hn : n ∈ live)
    (hj : j ∈ live) (hne : n ≠ j) (htype : (m.inode n).fileType = TYPE_REGULAR)
    (htype' : (m.inode j).fileType = TYPE_REGULAR) :
    (m.inode n).sectStart.toNat + NR_FILE_SECTS ≤ (m.inode j).sectStart.toNat ∨
      (m.inode j).sectStart.toNat + NR_FILE_SECTS ≤
        (m.inode n).sectStart.toNat := by
  obtain ⟨-, hdata⟩ := regular_inData (h.kind n hn) htype
  obtain ⟨-, hdata'⟩ := regular_inData (h.kind j hj) htype'
  have hstart := hdata.start
  have hstart' := hdata'.start
  by_contra hout
  -- the later of the two first bits is in both
  have hno : ∀ y, OwnsBit sb (m.inode n) y → ¬ OwnsBit sb (m.inode j) y :=
    fun y hy hy' => hne (h.sects.one_owner n hn j hj y hy hy')
  refine hno (max (startBit sb (m.inode n)) (startBit sb (m.inode j))) ?_ ?_
  · rw [ownsBit_iff hdata, startBit, startBit]
    omega
  · rw [ownsBit_iff hdata', startBit, startBit]
    omega

/-- Files whose inodes are as they were have their contents, when nothing but
    the front of the disk has changed. -/
theorem contents_kept (hfits : Fits sb) (hmaps : Maps sb m live)
    (h : Contents m f live a) {live' : Finset Nat} (hsub : live' ⊆ live)
    (hinode : ∀ n ∈ live', (m'.inode n).fileType = TYPE_REGULAR →
      m'.inode n = m.inode n)
    (hf : ∀ x, dirByte sb + DIR_BYTES ≤ x → f' x = f x) :
    Contents m' f' live' a := by
  refine ⟨fun n hn htype => ?_, fun n hn htype x hx => ?_⟩
  · have hsame := hinode n hn htype
    rw [hsame] at htype ⊢
    exact h.size n (hsub hn) htype
  · have hsame := hinode n hn htype
    rw [hsame] at htype ⊢
    have hbehind := behind_dir hfits hmaps (hsub hn) htype
    rw [hf _ (by omega)]
    exact h.bytes n (hsub hn) htype x hx

theorem inode_withFile {j : Nat} (hj : j ≠ 1) (hjn : j ≠ n) :
    (m.withFile n β k name p r).inode j = m.inode j :=
  (setInode_other _ hj r).trans (setInode_other _ hjn p)

theorem inode_withoutFile {j : Nat} (hj : j ≠ 1) (hjn : j ≠ n) :
    (m.withoutFile n β k p r).inode j = m.inode j :=
  (setInode_other _ hj r).trans (setInode_other _ hjn p)

/-- A regular inode is not that of the directory. -/
theorem regular_ne (hmaps : Maps sb m live) (hn : n ∈ live)
    (htype : (m.inode n).fileType = TYPE_REGULAR) : n ≠ 1 :=
  (regular_inData (hmaps.kind n hn) htype).1

/-- **A NEW FILE** is empty. -/
theorem contents_create (hfits : Fits sb) (hmaps : Maps sb m live)
    (hmaps' : Maps sb (m.withFile n β k name p r) (insert n live))
    (h : Contents m f live a) (hnew : n ∉ live) (hsize : p.fileSize = 0)
    (hf : ∀ x, dirByte sb + DIR_BYTES ≤ x → f' x = f x) :
    Contents (m.withFile n β k name p r) f' (insert n live) (a.create name n fun x =>
      f' (512 * ((m.withFile n β k name p r).inode n).sectStart.toNat + x)) := by
  have hn1 : n ≠ 1 := fun h1 => hnew (h1 ▸ hmaps.root)
  have hself : (m.withFile n β k name p r).inode n = asStored n p :=
    (setInode_other _ hn1 r).trans (setInode_same ..)
  have hold : Contents (m.withFile n β k name p r) f' live a := by
    refine contents_kept hfits hmaps h (Finset.Subset.refl live)
      (fun j hj htype => ?_) hf
    exact inode_withFile (regular_ne hmaps' (Finset.mem_insert_of_mem hj) htype)
      fun hjn => hnew (hjn ▸ hj)
  refine ⟨fun j hj htype => ?_, fun j hj htype x hx => ?_⟩
  · rw [create_size]
    by_cases hjn : j = n
    · rw [if_pos hjn, hjn, hself]
      exact congrArg BitVec.toNat hsize
    · rw [if_neg hjn]
      exact hold.size j (Finset.mem_of_mem_insert_of_ne hj hjn) htype
  · rw [create_bytes]
    by_cases hjn : j = n
    · rw [if_pos hjn, hjn]
    · rw [if_neg hjn]
      exact hold.bytes j (Finset.mem_of_mem_insert_of_ne hj hjn) htype x hx

/-- **A REMOVED FILE** leaves the others. -/
theorem contents_remove (hfits : Fits sb) (hmaps : Maps sb m live)
    (hmaps' : Maps sb (m.withoutFile n β k p r) (live.erase n))
    (h : Contents m f live a) (hf : ∀ x, dirByte sb + DIR_BYTES ≤ x → f' x = f x)
    (name : List Byte) :
    Contents (m.withoutFile n β k p r) f' (live.erase n) (a.remove name n) := by
  have hold : Contents (m.withoutFile n β k p r) f' (live.erase n) a :=
    contents_kept hfits hmaps h (Finset.erase_subset n live)
      (fun j hj htype => inode_withoutFile (regular_ne hmaps' hj htype)
        (Finset.ne_of_mem_erase hj)) hf
  exact ⟨hold.size, hold.bytes⟩

/-- **O_TRUNC** makes a file empty. -/
theorem contents_cut (hfits : Fits sb) (hmaps : Maps sb m live)
    (h : Contents m f live a) (hp : m.inode n = asStored n p) (flags : BitVec 32)
    (hf : ∀ x, dirByte sb + DIR_BYTES ≤ x → f' x = f x) :
    Contents (m.setInode n (cut flags p)) f' live (a.truncate flags n) := by
  by_cases hflags : flags &&& O_TRUNC = 0
  · rw [Store.truncate, if_pos hflags, cut, if_pos hflags, setInode_self hp]
    exact contents_kept hfits hmaps h (Finset.Subset.refl live) (fun _ _ _ => rfl) hf
  · rw [cut, if_neg hflags]
    have hinode : ∀ j, (m.setInode n { p with fileSize := 0 }).inode j =
        if j = n then asStored n { p with fileSize := 0 } else m.inode j :=
      fun j => Function.update_apply ..
    -- the type and the sectors are as they were
    have hsame : ∀ j, ((m.setInode n { p with fileSize := 0 }).inode j).fileType =
          (m.inode j).fileType ∧
        ((m.setInode n { p with fileSize := 0 }).inode j).sectStart =
          (m.inode j).sectStart := by
      intro j
      rw [hinode]
      split
      · rename_i hj
        rw [hj, hp]
        exact ⟨rfl, rfl⟩
      · exact ⟨rfl, rfl⟩
    refine ⟨fun j hj htype => ?_, fun j hj htype x hx => ?_⟩
    · rw [(hsame j).1] at htype
      rw [hinode, truncate_size, if_congr (and_iff_right hflags) rfl rfl]
      split
      · rfl
      · exact h.size j hj htype
    · rw [(hsame j).1] at htype
      have hbehind := behind_dir hfits hmaps hj htype
      rw [(hsame j).2, hf _ (by omega), truncate_bytes]
      exact h.bytes j hj htype x hx

/-- **A WRITE** inside the sectors of a file is a write to the store. -/
theorem contents_write (buf : Nat → Byte) (hfits : Fits sb) (hmaps : Maps sb m live)
    (h : Contents m f live a) (hn : n ∈ live) (hp : m.inode n = asStored n p)
    (htype : p.fileType = TYPE_REGULAR) (hend : pos + len ≤ FILE_BYTES)
    (hf : ∀ x, dirByte sb + DIR_BYTES ≤ x →
      f' x = put f (512 * p.sectStart.toNat + pos) len buf x) :
    Contents (m.setInode n (KosFileBytes.grown p (pos + len))) f' live
      (a.write n pos len buf) := by
  have hbytes : FILE_BYTES = 512 * NR_FILE_SECTS := rfl
  obtain ⟨q, hq⟩ : ∃ q, q = KosFileBytes.grown p (pos + len) := ⟨_, rfl⟩
  have hq' : q.fileType = p.fileType ∧ q.sectStart = p.sectStart := by
    rw [hq]
    exact ⟨rfl, rfl⟩
  have hold : (m.inode n).fileType = TYPE_REGULAR := by
    rw [hp]
    exact htype
  have hstart : (m.inode n).sectStart = p.sectStart := by
    rw [hp]
    rfl
  rw [← hq]
  have hinode : ∀ j, (m.setInode n q).inode j =
      if j = n then asStored n q else m.inode j := fun j => Function.update_apply ..
  refine ⟨fun j hj hreg => ?_, fun j hj hreg x hx => ?_⟩
  · rw [hinode] at hreg ⊢
    rw [write_size]
    by_cases hjn : j = n
    · rw [if_pos hjn, if_pos hjn, ← h.size n hn hold, hp]
      have hlt := p.fileSize.isLt
      show q.fileSize.toNat = max p.fileSize.toNat (pos + len)
      have hmax : max p.fileSize.toNat (pos + len) < 4294967296 := by
        rw [hbytes, NR_FILE_SECTS] at hend
        omega
      rw [hq, KosFileBytes.grown, BitVec.toNat_ofNat, Nat.mod_eq_of_lt hmax]
    · rw [if_neg hjn] at hreg ⊢
      rw [if_neg hjn]
      exact h.size j hj hreg
  · rw [hinode] at hreg ⊢
    rw [write_bytes]
    by_cases hjn : j = n
    · rw [if_pos hjn, if_pos hjn]
      show f' (512 * q.sectStart.toNat + x) = _
      have hbehind := behind_dir hfits hmaps hn hold
      rw [hstart] at hbehind
      rw [hq'.2, hf _ (by omega)]
      by_cases hin : pos ≤ x ∧ x < pos + len
      · rw [put_of_in (by omega), put_of_in hin]
        congr 1
        omega
      · rw [put_of_out (by omega), put_of_out (by omega), ← hstart]
        exact h.bytes n hn hold x hx
    · rw [if_neg hjn] at hreg ⊢
      rw [if_neg hjn]
      have hbehind := behind_dir hfits hmaps hj hreg
      have hapart := extents_apart hmaps hj hn hjn hreg hold
      rw [hstart] at hapart
      rw [hf _ (by omega), put_of_out (by omega)]
      exact h.bytes j hj hreg x hx

end Contents

/-! ## Transfers -/

/-- A descriptor of a live regular file. -/
structure At (sb : SuperBlock) (live : Finset Nat) (s : Fs)
    (d : Fin NR_FILE_DESC) (i : Fin NR_INODE) (n pos : Nat) : Prop where
  live : n ∈ live
  dev : (s.inodeTable i).dev = ROOT_DEV_NR
  nr : (s.inodeTable i).nr = n
  stored : (imageIn sb s).inode n = asStored n (s.inodeTable i)
  regular : (s.inodeTable i).fileType = TYPE_REGULAR
  pos : (s.fileDescTable d).pos = pos

section Transfers

variable {sb : SuperBlock} {live : Finset Nat} {s t w : Fs} {p : Pid}
  {d : Fin NR_FILE_DESC} {i : Fin NR_INODE} {n pos len : Nat} {q : Inode}
  {buf : Nat → Byte} {r : Int × (Nat → Byte)} {fd : Int}

theorem openFile_of_behind (h : Inv sb live s) (hbehind : Behind s p.val fd d i)
    (hregular : (s.inodeTable i).fileType = TYPE_REGULAR) :
    ∃ n pos, At sb live s d i n pos := by
  have hused : 0 < (s.inodeTable i).cnt :=
    RefCount.exact_used h.counted.exact (atRoot_nonneg s) hbehind.2
  obtain ⟨hdev, n, hn, hnr, hstored⟩ := h.files.loaded.entry i (by omega)
  have hpos := h.files.loaded.pos d (by
    rw [hbehind.2]
    exact Option.some_ne_none i)
  exact ⟨n, _, hn, hdev, hnr, hstored, hregular,
    (Int.toNat_of_nonneg hpos.1).symm⟩

/-- The file in the image. -/
theorem openFile_image (h : At sb live s d i n pos) :
    ((imageIn sb s).inode n).fileType = TYPE_REGULAR ∧
      ((imageIn sb s).inode n).sectStart = (s.inodeTable i).sectStart := by
  rw [h.stored]
  exact ⟨h.regular, rfl⟩

/-- The chunks of a transfer that was done have places on the disk. -/
theorem addressable_of_done {io : Io} (hq : s.inodeTable i = q)
    (hpos : (s.fileDescTable d).pos = pos) (hsmall : q.sectStart.toNat < 1073741824)
    (hend : pos + len ≤ (limit io q).toNat)
    (hrun : doReadWriteRegular io i d len buf s = .ok r t) :
    Addressable q pos len := by
  obtain ⟨-, ⟨-, hint⟩, v, u, hloop, -, -, -⟩ := (run_regular hq hpos).mp hrun
  have hint' : pos + len < 2147483648 := by omega
  have hlast : posEnd io q ((pos : Int) + len) = (pos + len : Nat) := by
    rw [← Int.natCast_add, posEnd_eq hint', Nat.min_eq_left hend]
  have hle : pos / 512 ≤ (pos + len) / 512 := by omega
  have hfirst : rwSect q pos = (q.sectStart.toNat + pos / 512 : Nat) := by
    rw [rwSect_eq (by omega), if_pos (by omega)]
  have hmax : rwSect q (pos + len : Nat) =
      (q.sectStart.toNat + (pos + len) / 512 : Nat) := by
    rw [rwSect_eq (by omega), if_pos (by omega)]
  obtain ⟨c, hc⟩ : ∃ c, c = min ((pos + len) / 512 - pos / 512 + 1) 2048 :=
    ⟨_, rfl⟩
  obtain ⟨N, hc0, -, -, -, hN⟩ := chunks hle hc
  have hcint : min (rwSect q (pos + len : Nat) - rwSect q pos + 1) 2048 =
      (c : Int) := by
    rw [hfirst, hmax]
    omega
  rw [hlast, hcint] at hloop
  have hchunk := (rwLoop_cases (by omega) hloop).1 (N - 1)
  rw [← Int.natCast_mul, hN, hfirst, hmax] at hchunk
  have haddr := (hchunk (by omega)).2
  refine ⟨hint, ?_⟩
  rw [lastChunk]
  omega

/-- **A READ** inside the file returns the bytes of its sectors, and leaves the
    disk as it is. -/
theorem read_done (h : At sb live s d i n pos)
    (hend : pos + len ≤ (s.inodeTable i).fileSize.toNat)
    (haddr : Addressable (s.inodeTable i) pos len)
    (hrun : doReadWriteRegular .read i d len buf s = .ok r t) :
    Moved s t ROOT_DEV_NR d (s.disk ROOT_DEV_NR) len ∧
      r = ((len : Int), put buf 0 len (drop (s.disk ROOT_DEV_NR)
        (512 * (s.inodeTable i).sectStart.toNat + pos))) := by
  obtain ⟨u, hu, hmoved⟩ := KosFileBytes.read_run buf h.regular h.pos hend haddr
  rw [hrun] at hu
  cases hu
  rw [← h.dev]
  exact ⟨hmoved, rfl⟩

/-- The size becomes the position, if that is more. -/
theorem growSize_done (hm : Made sb) (hsb : s.superOf ROOT_DEV_NR = some sb)
    (hq : s.inodeTable i = q) (hdev : q.dev = ROOT_DEV_NR) (hnr : q.nr = n)
    (h1 : 1 ≤ n) (h2 : n ≤ 4096) (hstored : (imageIn sb s).inode n = asStored n q)
    (hpos : (s.fileDescTable d).pos = pos) (hlt : pos < 2147483648) :
    ∃ t, growSize i d s = .ok () t ∧ OuterKept sb s t ∧
      imageIn sb t = (imageIn sb s).setInode n (KosFileBytes.grown q pos) := by
  by_cases hmore : q.fileSize.toNat < pos
  · have hless : (s.inodeTable i).fileSize <
        BitVec.ofInt 32 (s.fileDescTable d).pos := by
      rw [hq, hpos]
      exact (size_lt_pos hlt).mpr hmore
    have hgrown : KosFileBytes.grown q pos =
        { q with fileSize := BitVec.ofInt 32 (s.fileDescTable d).pos } := by
      rw [KosFileBytes.grown, Nat.max_eq_right (Nat.le_of_lt hmore), hpos,
        BitVec.ofInt_natCast]
    obtain ⟨v, hv⟩ : ∃ v, v = s.updInode i fun q => { q with
        fileSize := BitVec.ofInt 32 (s.fileDescTable d).pos } := ⟨_, rfl⟩
    have hinode : v.inodeTable i = KosFileBytes.grown q pos := by
      rw [hv, updInode_self, hq, hgrown]
    have hst := stored_of_made hm h1 h2
    have hsuper : v.superOf ROOT_DEV_NR = some sb := by
      rw [hv]
      exact hsb
    have hwrite : writeInode i v = .ok () (v.written i sb) := by
      refine run_writeInode.mpr ⟨sb, ?_, ?_, rfl⟩
      · rw [hinode, show (KosFileBytes.grown q pos).dev = q.dev from rfl, hdev]
        exact hsuper
      · rw [hinode, show (KosFileBytes.grown q pos).nr = q.nr from rfl, hnr]
        exact hst
    have himage : imageIn sb v = imageIn sb s := by
      rw [hv]
      rfl
    have hkept : OuterKept sb v (v.written i sb) :=
      outer_writeInode hm hsuper hinode hdev hnr h1 h2 hwrite
    refine ⟨v.written i sb, ?_, ?_, ?_⟩
    · refine run_growSize.mpr (Or.inl ⟨hless, sb, ?_, ?_, by rw [hv]⟩)
      · rw [hq, hdev]
        exact hsb
      · rw [hq, hnr]
        exact hst
    · rw [hv] at hkept ⊢
      exact hkept
    · rw [← himage]
      exact (becomes_writeInode hm hsuper hinode hdev hnr h1 h2 hwrite).image
  · have hless : ¬ (s.inodeTable i).fileSize <
        BitVec.ofInt 32 (s.fileDescTable d).pos := by
      rw [hq, hpos]
      exact mt (size_lt_pos hlt).mp hmore
    refine ⟨s, run_growSize.mpr (Or.inr ⟨hless, rfl⟩), refl_of (OuterKept sb) s, ?_⟩
    rw [KosFileBytes.grown, Nat.max_eq_left (Nat.le_of_not_lt hmore),
      BitVec.ofNat_toNat, BitVec.setWidth_eq]
    exact (setInode_self hstored).symm

/-- **A WRITE** inside the sectors of the file changes its bytes and its size. -/
theorem write_done (hfits : Fits sb) (h : Inv sb live s)
    (ho : At sb live s d i n pos)
    (hend : pos + len ≤ (limit .write (s.inodeTable i)).toNat)
    (haddr : Addressable (s.inodeTable i) pos len)
    (hrun : doReadWriteRegular .write i d len buf s = .ok r t) :
    (∀ x, dirByte sb + DIR_BYTES ≤ x → t.disk ROOT_DEV_NR x =
      put (s.disk ROOT_DEV_NR) (512 * (s.inodeTable i).sectStart.toNat + pos) len
        buf x) ∧
      (∀ x < 1024, t.disk ROOT_DEV_NR x = s.disk ROOT_DEV_NR x) ∧
      imageIn sb t = (imageIn sb s).setInode n
        (KosFileBytes.grown (s.inodeTable i) (pos + len)) ∧
      SameTables (extended i d (advanced d len s)) t ∧ r = ((len : Int), buf) := by
  obtain ⟨hreg, hstart⟩ := openFile_image ho
  have hbehind := behind_dir hfits h.files.maps ho.live hreg
  rw [hstart] at hbehind
  have hrange := h.files.maps.range n ho.live
  have hint := haddr.1
  obtain ⟨w, hmoved, hdone⟩ := regular_run .write buf rfl (Or.inl ho.regular)
    ho.pos hend haddr
  have hdisk : ∀ x, w.disk ROOT_DEV_NR x = put (s.disk ROOT_DEV_NR)
      (512 * (s.inodeTable i).sectStart.toNat + pos) len buf x := by
    intro x
    rw [hmoved.disk, ho.dev, Function.update_self]
    rfl
  have himage : imageIn sb w = imageIn sb s := by
    refine image_behind hfits.made fun x hx => ?_
    rw [hdisk x, put_of_out (by omega)]
  obtain ⟨u, hgrow, hkept, hafter⟩ := growSize_done (n := n)
    hfits.made ((superOf_congr hmoved.supers).trans h.super)
    (congrFun hmoved.inodes i) ho.dev ho.nr hrange.1 (by omega)
    (by rw [himage]; exact ho.stored) (by
      rw [hmoved.descs, Function.update_self, ho.pos, Int.natCast_add])
    (by omega)
  have hu := hdone u hgrow
  rw [hrun] at hu
  cases hu
  rw [himage] at hafter
  have hadvanced : SameTables (advanced d len s) w :=
    ⟨hmoved.inodes, hmoved.supers, hmoved.descs, hmoved.slots, hmoved.root⟩
  refine ⟨fun x hx => ?_, fun x hx => ?_, hafter,
    same_trans (same_extended hadvanced i d) (growSize_tables hgrow), rfl⟩
  · rw [hkept x (Or.inr hx), hdisk x]
  · rw [hkept x (Or.inl hx), hdisk x, put_of_out (by
      rw [dirByte, hfits.made.first] at hbehind
      omega)]

end Transfers

end KosStoreContents
