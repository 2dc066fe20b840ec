import Kos.ReadWriteProofs

/-! # The bytes of a file

    What `do_read_write` promises about the bytes of a regular file.

    * A write stays in the sectors of the file if and only if it ends inside
      them (`write_contained_iff`), a read is exact if and only if it ends
      inside the file (`read_exact_iff`), each time with sectors that have a
      place on the disk (`Addressable`);
    * what has been written is read back (`round_trip_iff`). -/

namespace KosFileBytes

open FlatMemory (Byte)
open Overlay
open KosFs
open KosReadWrite

/-! ## Writing -/

/-- The size of the sectors of a file. -/
def capacity (p : Inode) : Int := p.nrSects.toNat * 512

/-- A byte of the sectors of a file. -/
def InExtent (p : Inode) (a : Nat) : Prop :=
  512 * p.sectStart.toNat ≤ a ∧
    a < 512 * (p.sectStart.toNat + p.nrSects.toNat)

/-- A byte of the inode's entry in the inode array. -/
def InEntry (sb : SuperBlock) (nr : Int) (a : Nat) : Prop :=
  entryByte sb nr ≤ a ∧ a < entryByte sb nr + INODE_SIZE

/-- A regular file in the table. -/
def Regular (p : Inode) : Prop := p.cnt ≠ 0 ∧ p.fileType = TYPE_REGULAR

/-- The files in `inode_table` have sectors of their own in the data area of
    their device, behind the inode array. -/
structure ExtentInvariant (s : Fs) : Prop where
  entry : ∀ i, Regular (s.inodeTable i) → ∃ sb,
    s.superOf (s.inodeTable i).dev = some sb ∧ 0 < (s.inodeTable i).nr ∧
      0 ≤ inodeSector sb (s.inodeTable i).nr ∧
      inodeSector sb (s.inodeTable i).nr < sb.nr1stDataSect.toNat ∧
      sb.nr1stDataSect.toNat ≤ (s.inodeTable i).sectStart.toNat ∧
      (s.inodeTable i).sectStart.toNat + (s.inodeTable i).nrSects.toNat ≤
        sb.nrSects.toNat
  fits : ∀ i, Regular (s.inodeTable i) →
    capacity (s.inodeTable i) < 4294967296
  apart : ∀ i j a, i ≠ j → Regular (s.inodeTable i) →
    Regular (s.inodeTable j) → (s.inodeTable i).dev = (s.inodeTable j).dev →
    InExtent (s.inodeTable i) a → ¬ InExtent (s.inodeTable j) a

/-- What a write through the descriptor `d` of the file `i` promises. -/
structure WriteContained (s s' : Fs) (i : Fin NR_INODE)
    (d : Fin NR_FILE_DESC) (len ret : Int) : Prop where
  returned : ret =
    min len (capacity (s.inodeTable i) - (s.fileDescTable d).pos)
  position : (s'.fileDescTable d).pos = (s.fileDescTable d).pos + ret
  contained : ∀ dev a, s'.disk dev a ≠ s.disk dev a →
    dev = (s.inodeTable i).dev ∧ (InExtent (s.inodeTable i) a ∨
      ∃ sb, s.superOf dev = some sb ∧ InEntry sb (s.inodeTable i).nr a)

/-! ## A file system with one file -/

/-- A partition of ten million sectors. -/
def demoSuper : SuperBlock where
  magic := 0x111
  nrInodes := 4096
  nrSects := 10000000
  nrInodeMapSects := 1
  nrSectMapSects := 2442
  nr1stDataSect := 2701
  nrInodeSects := 256
  rootInode := 1
  inodeSize := 32
  inodeIsizeOff := 4
  inodeStartOff := 8
  dirEntSize := 16
  dirEntInodeOff := 0
  dirEntFnameOff := 4
  sbDev := ROOT_DEV_NR

/-- A file of `size` bytes in the extent from `start` on. -/
def demoFile (start size : BitVec 32) : Inode where
  fileType := TYPE_REGULAR
  fileSize := size
  sectStart := start
  nrSects := 2048
  dev := ROOT_DEV_NR
  cnt := 1
  nr := 6

/-- An entry that nobody uses. -/
def freeEntry : Inode := ⟨0, 0, 0, 0, 0, 0, 0⟩

/-- Process 5 has the file open as its descriptor 0. -/
def demoFs (start size : BitVec 32) (pos : Int) : Fs where
  disk := fun _ _ => 0
  writes := []
  fsbuf := fun _ => 0
  superBlockTable := fun _ => demoSuper
  inodeTable := fun i => if i.val = 0 then demoFile start size else freeEntry
  fileDescTable := fun d =>
    if d.val = 0 then ⟨O_RDWR, pos, 1, some ⟨0, by decide⟩⟩ else ⟨0, 0, 0, none⟩
  fileDesc := fun pid k =>
    if pid = 5 ∧ k.val = 0 then some ⟨0, by decide⟩ else none
  rootInode := ⟨1, by decide⟩

/-- The first inode of the table. -/
def demoInode : Fin NR_INODE := ⟨0, by decide⟩

/-- The first descriptor. -/
def demoDesc : Fin NR_FILE_DESC := ⟨0, by decide⟩

/-- The file of the examples is a regular one. -/
theorem demoFs_regular (start size : BitVec 32) (pos : Int) :
    Regular ((demoFs start size pos).inodeTable demoInode) :=
  ⟨by simp [demoFs, demoInode, demoFile], rfl⟩

/-- Its extent meets the invariant. -/
theorem demoFs_extent {start size : BitVec 32} {pos : Int}
    (h : 2701 ≤ start.toNat ∧ start.toNat + 2048 ≤ 10000000) :
    ExtentInvariant (demoFs start size pos) := by
  have hfile : ∀ i, Regular ((demoFs start size pos).inodeTable i) →
      i.val = 0 := by
    intro i hreg
    by_contra hi
    refine hreg.1 ?_
    rw [demoFs]
    dsimp only
    rw [if_neg hi]
    rfl
  have heq : ∀ i, i.val = 0 →
      (demoFs start size pos).inodeTable i = demoFile start size :=
    fun i hi => if_pos hi
  refine ⟨fun i hreg => ?_, fun i hreg => ?_, fun i j a hne hi hj => ?_⟩
  · rw [heq i (hfile i hreg)]
    have hsect : 0 < (6 : Int) ∧ 0 ≤ inodeSector demoSuper 6 ∧
        inodeSector demoSuper 6 < demoSuper.nr1stDataSect.toNat := by
      decide
    exact ⟨demoSuper, rfl, hsect.1, hsect.2.1, hsect.2.2, h.1, h.2⟩
  · rw [heq i (hfile i hreg)]
    show ((2048 : BitVec 32).toNat : Int) * 512 < 4294967296
    decide
  · exact absurd (Fin.ext ((hfile i hi).trans (hfile j hj).symm)) hne

section Write

variable {s s' : Fs} {i : Fin NR_INODE} {d : Fin NR_FILE_DESC}

/-- A write is limited by the sectors of the file. -/
theorem limit_write {p : Inode} (h : capacity p < 4294967296) :
    ((limit .write p).toNat : Int) = capacity p := by
  rw [capacity] at h ⊢
  rw [limit, BitVec.toNat_mul, show (512 : BitVec 32).toNat = 512 from rfl]
  omega

/-- Comparing a position with the size, as `u32`. -/
theorem size_lt_pos {size : BitVec 32} {pos : Nat} (h : pos < 2147483648) :
    size < BitVec.ofInt 32 (pos : Int) ↔ size.toNat < pos := by
  rw [BitVec.lt_def, BitVec.ofInt_natCast, BitVec.toNat_ofNat,
    Nat.mod_eq_of_lt (by omega)]

/-- An inode in front of an addressable file is stored. -/
theorem stored_of_extent {p : Inode} {sb : SuperBlock} {pos len : Nat}
    (hnr : 0 < p.nr) (h0 : 0 ≤ inodeSector sb p.nr)
    (hlt : inodeSector sb p.nr < sb.nr1stDataSect.toNat)
    (hstart : sb.nr1stDataSect.toNat ≤ p.sectStart.toNat)
    (haddr : Addressable p pos len) : Stored sb p.nr := by
  refine ⟨⟨h0, ?_⟩, Int.tmod_nonneg _ (by omega)⟩
  have hchunk := haddr.2
  rw [lastChunk] at hchunk
  have : (0 : Int) ≤ ((pos + len : Int) / 512 - (pos : Int) / 512) / 2048 := by
    omega
  omega

/-- A byte of the fields is in the entry of the inode. -/
theorem inEntry_of_field {sb : SuperBlock} {nr : Int} {a : Nat}
    (h : ¬ (a < entryByte sb nr ∨ entryByte sb nr + 16 ≤ a)) :
    InEntry sb nr a := by
  rw [InEntry, INODE_SIZE]
  omega

/-- The entries of the inode array are in front of the data. -/
theorem inEntry_lt {sb : SuperBlock} {nr : Int} {a : Nat} (hnr : 0 < nr)
    (h0 : 0 ≤ inodeSector sb nr)
    (hlt : inodeSector sb nr < sb.nr1stDataSect.toNat)
    (h : InEntry sb nr a) : a < 512 * sb.nr1stDataSect.toNat := by
  have hmod : (nr - 1).tmod 16 < 16 := Int.tmod_lt_of_pos _ (by decide)
  have hmod0 : 0 ≤ (nr - 1).tmod 16 := Int.tmod_nonneg _ (by omega)
  rw [InEntry, entryByte, INODE_SIZE] at h
  omega

/-- A write that keeps its promise ends inside the sectors of the file. -/
theorem end_of_contained {len ret : Int} {buf buf' : Nat → Byte}
    (hext : ExtentInvariant s) (hreg : Regular (s.inodeTable i))
    (hpos : 0 ≤ (s.fileDescTable d).pos) (hlen : 0 ≤ len)
    (hrun : doReadWriteRegular .write i d len buf s = .ok (ret, buf') s')
    (hw : WriteContained s s' i d len ret) :
    (s.fileDescTable d).pos + len ≤ capacity (s.inodeTable i) ∧
      Addressable (s.inodeTable i) (s.fileDescTable d).pos len := by
  obtain ⟨p, hp⟩ : ∃ p, s.inodeTable i = p := ⟨_, rfl⟩
  obtain ⟨pos, hposn⟩ := Int.eq_ofNat_of_zero_le hpos
  obtain ⟨len, rfl⟩ := Int.eq_ofNat_of_zero_le hlen
  obtain ⟨sb, -, -, -, -, -, hin⟩ := hext.entry i hreg
  have hcap := hext.fits i hreg
  have hreturned := hw.returned
  rw [hp] at hin hcap
  rw [hp, hposn] at hreturned ⊢
  have hlimit := limit_write hcap
  have hnr32 := sb.nrSects.isLt
  have hcapdef : capacity p = p.nrSects.toNat * 512 := rfl
  obtain ⟨-, t, n, -, hret, hn, -, -, -, hall, hstop⟩ := regular_cases .write hp
    hposn (by omega) hrun
  have hinside : pos + len ≤ (limit .write p).toNat := by
    by_contra hout
    exact hstop (by omega) (by omega)
  exact ⟨by omega, hall hinside (by omega)⟩

/-- The size after a write up to position `n`. -/
def grown (p : Inode) (n : Nat) : Inode :=
  { p with fileSize := BitVec.ofNat 32 (max p.fileSize.toNat n) }

/-- `len` bytes of `buf` have been written at position `pos`. -/
structure Written (s s' : Fs) (i : Fin NR_INODE) (d : Fin NR_FILE_DESC)
    (pos len : Nat) (buf : Nat → Byte) : Prop where
  descs : s'.fileDescTable = Function.update s.fileDescTable d
    { s.fileDescTable d with pos := (pos + len : Nat) }
  supers : s'.superBlockTable = s.superBlockTable
  slots : s'.fileDesc = s.fileDesc
  root : s'.rootInode = s.rootInode
  inodes : s'.inodeTable =
    Function.update s.inodeTable i (grown (s.inodeTable i) (pos + len))
  devices : ∀ dev a, dev ≠ (s.inodeTable i).dev → s'.disk dev a = s.disk dev a
  disk : ∀ a, (∀ sb, s.superOf (s.inodeTable i).dev = some sb →
      ¬ InEntry sb (s.inodeTable i).nr a) →
    s'.disk (s.inodeTable i).dev a = put (s.disk (s.inodeTable i).dev)
      (512 * (s.inodeTable i).sectStart.toNat + pos) len buf a

/-- **A WRITE INSIDE THE SECTORS**, byte for byte. -/
theorem write_run {pos len : Nat} (buf : Nat → Byte)
    (hext : ExtentInvariant s) (hreg : Regular (s.inodeTable i))
    (hpos : (s.fileDescTable d).pos = pos)
    (hend : (pos : Int) + len ≤ capacity (s.inodeTable i))
    (haddr : Addressable (s.inodeTable i) pos len) :
    ∃ s', doReadWriteRegular .write i d len buf s = .ok (len, buf) s' ∧
      Written s s' i d pos len buf := by
  obtain ⟨p, hp⟩ : ∃ p, s.inodeTable i = p := ⟨_, rfl⟩
  obtain ⟨sb, hsb, hnr, h0, hlt, hstart, hin⟩ := hext.entry i hreg
  have hcap := hext.fits i hreg
  rw [hp] at hsb hnr h0 hlt hstart hin hcap hreg haddr hend
  have hlimit := limit_write hcap
  obtain ⟨t, hmoved, hrun⟩ := regular_run .write buf hp
    (Or.inl hreg.2) hpos (by omega) haddr
  have hint : pos + len < 2147483648 := by
    have := haddr.1
    omega
  have htpos : (t.fileDescTable d).pos = (pos + len : Nat) := by
    rw [hmoved.descs, Function.update_self, hpos, Int.natCast_add]
  have htdesc : t.fileDescTable = Function.update s.fileDescTable d
      { s.fileDescTable d with pos := (pos + len : Nat) } := by
    rw [hmoved.descs, hpos, Int.natCast_add]
  have htp : t.inodeTable i = p := by rw [hmoved.inodes, hp]
  have hsup : t.superOf p.dev = some sb := by
    rw [← hsb, Fs.superOf, Fs.superOf, hmoved.supers]
  have htdisk : ∀ a, t.disk p.dev a = put (s.disk p.dev)
      (512 * p.sectStart.toNat + pos) len buf a := by
    intro a
    rw [hmoved.disk, Function.update_self, diskAfter]
  have htdev : ∀ dev a, dev ≠ p.dev → t.disk dev a = s.disk dev a := by
    intro dev a hdev
    rw [hmoved.disk, Function.update_of_ne hdev]
  -- a file that grew has its size written to its inode's sector
  by_cases hgrow : p.fileSize < BitVec.ofInt 32 (t.fileDescTable d).pos
  · have hst := stored_of_extent hnr h0 hlt hstart haddr
    refine ⟨_, hrun _ (run_growSize.mpr (Or.inl ⟨by rwa [htp], sb, by rwa [htp],
      by rwa [htp], rfl⟩)), htdesc, hmoved.supers, hmoved.slots, hmoved.root,
      ?_, ?_, ?_⟩
    · have hmore := (size_lt_pos hint).mp (htpos ▸ hgrow)
      simp only [Fs.written, Fs.updInode, hp, htp, htpos, hmoved.inodes,
        grown, Nat.max_eq_right (Nat.le_of_lt hmore),
        BitVec.ofInt_natCast]
    · intro dev a hdev
      rw [hp] at hdev
      simp only [Fs.written, updInode_self, htp]
      rw [Function.update_of_ne hdev]
      exact htdev dev a hdev
    · intro a hent
      rw [hp] at hent ⊢
      simp only [Fs.written, updInode_self, htp]
      rw [Function.update_self, put_of_out]
      · exact htdisk a
      · by_contra hfield
        exact hent sb hsb (inEntry_of_field hfield)
  · refine ⟨_, hrun _ (run_growSize.mpr (Or.inr ⟨by rwa [htp], rfl⟩)), htdesc,
      hmoved.supers, hmoved.slots, hmoved.root, ?_, ?_, ?_⟩
    · have hless := mt (size_lt_pos hint).mpr (htpos ▸ hgrow)
      rw [hmoved.inodes, hp, grown, Nat.max_eq_left (by omega),
        BitVec.ofNat_toNat, BitVec.setWidth_eq, ← hp, Function.update_eq_self]
    · intro dev a hdev
      rw [hp] at hdev
      exact htdev dev a hdev
    · intro a _
      rw [hp]
      exact htdisk a

/-- **A WRITE** to a file stays in its sectors and says how much it wrote if
    and only if it ends inside them and they have a place on the disk. -/
theorem write_contained_iff {len : Int} {buf : Nat → Byte}
    (hext : ExtentInvariant s) (hreg : Regular (s.inodeTable i))
    (hpos : 0 ≤ (s.fileDescTable d).pos) (hlen : 0 ≤ len) :
    (∃ ret buf' s', doReadWriteRegular .write i d len buf s =
        .ok (ret, buf') s' ∧ WriteContained s s' i d len ret) ↔
      (s.fileDescTable d).pos + len ≤ capacity (s.inodeTable i) ∧
        Addressable (s.inodeTable i) (s.fileDescTable d).pos len := by
  constructor
  · rintro ⟨ret, buf', s', hrun, hw⟩
    exact end_of_contained hext hreg hpos hlen hrun hw
  · rintro ⟨hend, haddr⟩
    obtain ⟨pos, hposn⟩ := Int.eq_ofNat_of_zero_le hpos
    obtain ⟨len, rfl⟩ := Int.eq_ofNat_of_zero_le hlen
    rw [hposn] at hend haddr
    obtain ⟨s', hrun, hw⟩ := write_run buf hext hreg hposn hend haddr
    refine ⟨_, _, s', hrun, ?_, ?_, fun dev a hne => ?_⟩
    · rw [hposn]
      omega
    · rw [hw.descs, Function.update_self, hposn, Int.natCast_add]
    · by_cases hd : dev = (s.inodeTable i).dev
      · subst hd
        refine ⟨rfl, ?_⟩
        by_contra hout
        rw [not_or] at hout
        have hentry : ∀ sb, s.superOf (s.inodeTable i).dev = some sb →
            ¬ InEntry sb (s.inodeTable i).nr a :=
          fun sb hsb hin => hout.2 ⟨sb, hsb, hin⟩
        rw [hw.disk a hentry] at hne
        refine hne (put_of_out ?_)
        have hext' := hout.1
        rw [InExtent] at hext'
        rw [capacity] at hend
        omega
      · exact absurd (hw.devices dev a hd) hne

/-- Five bytes at the start of the file. -/
theorem write_contained_iff_start : ∃ ret buf' s',
    doReadWriteRegular .write demoInode demoDesc 5 (fun _ => 0x61)
        (demoFs 4749 0 0) = .ok (ret, buf') s' ∧
      WriteContained (demoFs 4749 0 0) s' demoInode demoDesc 5 ret :=
  (write_contained_iff (demoFs_extent (by decide)) (demoFs_regular _ _ _)
    (by decide) (by decide)).mpr ⟨by decide, by decide⟩

/-- Two bytes at the last byte of the file's sectors: the second would be the
    first byte of the next file. -/
theorem write_overruns :
    ¬ ∀ (s : Fs) (i : Fin NR_INODE) (d : Fin NR_FILE_DESC) (len : Int)
        (buf : Nat → Byte), ExtentInvariant s → Regular (s.inodeTable i) →
      0 ≤ (s.fileDescTable d).pos → 0 ≤ len →
      ∃ ret buf' s', doReadWriteRegular .write i d len buf s =
        .ok (ret, buf') s' ∧ WriteContained s s' i d len ret := by
  intro hall
  have hext : ExtentInvariant (demoFs 4749 1048575 1048575) :=
    demoFs_extent (by decide)
  obtain ⟨ret, buf', s', hrun, hw⟩ := hall _ demoInode demoDesc 2
    (fun _ => 0x61) hext (demoFs_regular _ _ _) (by decide) (by decide)
  have hend := (end_of_contained hext (demoFs_regular _ _ _) (by decide)
    (by decide) hrun hw).1
  exact absurd hend (by decide)

/-- A contained write leaves the bytes of every other file alone. -/
theorem other_file_kept {j : Fin NR_INODE} {len ret : Int} {a : Nat}
    (hext : ExtentInvariant s) (hreg : Regular (s.inodeTable i))
    (hw : WriteContained s s' i d len ret) (hj : j ≠ i)
    (hregj : Regular (s.inodeTable j)) (ha : InExtent (s.inodeTable j) a) :
    s'.disk (s.inodeTable j).dev a = s.disk (s.inodeTable j).dev a := by
  by_contra hne
  obtain ⟨hdev, hin | ⟨sb, hsb, hent⟩⟩ := hw.contained _ a hne
  · exact hext.apart j i a hj hregj hreg hdev ha hin
  · obtain ⟨sb', hsb', hnr, h0, hlt, -, -⟩ := hext.entry i hreg
    obtain ⟨sbj, hsbj, -, -, -, hstart, -⟩ := hext.entry j hregj
    rw [hdev] at hsb hsbj
    rw [hsb'] at hsb hsbj
    cases hsb
    cases hsbj
    have hfront := inEntry_lt hnr h0 hlt hent
    rw [InExtent] at ha
    omega

end Write

/-! ## Reading -/

/-- What a read through the descriptor `d` of the file `i` promises. -/
structure ReadExact (s s' : Fs) (i : Fin NR_INODE) (d : Fin NR_FILE_DESC)
    (len : Int) (buf buf' : Nat → Byte) (ret : Int) : Prop where
  returned : ret = max 0 (min len
    ((s.inodeTable i).fileSize.toNat - (s.fileDescTable d).pos))
  position : (s'.fileDescTable d).pos = (s.fileDescTable d).pos + ret
  bytes : ∀ k : Nat, (k : Int) < ret → buf' k =
    s.disk (s.inodeTable i).dev (512 * (s.inodeTable i).sectStart.toNat +
      (s.fileDescTable d).pos.toNat + k)
  beyond : ∀ k : Nat, ret ≤ k → buf' k = buf k
  inodes : s'.inodeTable = s.inodeTable
  disk : s'.disk = s.disk

section Read

variable {s s' : Fs} {i : Fin NR_INODE} {d : Fin NR_FILE_DESC}

/-- A read that keeps its promise ends inside the file. -/
theorem end_of_exact {len ret : Int} {buf buf' : Nat → Byte}
    (hsects : (s.inodeTable i).sectStart.toNat +
      (s.inodeTable i).fileSize.toNat / 512 < 4294967296)
    (hpos : 0 ≤ (s.fileDescTable d).pos) (hlen : 0 ≤ len)
    (hrun : doReadWriteRegular .read i d len buf s = .ok (ret, buf') s')
    (hr : ReadExact s s' i d len buf buf' ret) :
    (s.fileDescTable d).pos + len ≤ (s.inodeTable i).fileSize.toNat ∧
      Addressable (s.inodeTable i) (s.fileDescTable d).pos len := by
  obtain ⟨p, hp⟩ : ∃ p, s.inodeTable i = p := ⟨_, rfl⟩
  obtain ⟨pos, hposn⟩ := Int.eq_ofNat_of_zero_le hpos
  obtain ⟨len, rfl⟩ := Int.eq_ofNat_of_zero_le hlen
  have hreturned := hr.returned
  rw [hp] at hsects
  rw [hp, hposn] at hreturned ⊢
  have hlimit : (limit .read p).toNat = p.fileSize.toNat := rfl
  obtain ⟨hint, t, n, hgrow, hret, hn, htpos, htino, -, hall, hstop⟩ :=
    regular_cases .read hp hposn hsects hrun
  have hinside : pos + len ≤ (limit .read p).toNat := by
    by_contra hout
    have hnstop := hstop (by omega)
    -- the position is behind the end of the file, whose size then changes
    have hmore : p.fileSize.toNat < pos + n := by omega
    have htp : t.inodeTable i = p := by rw [htino, hp]
    have hlt : p.fileSize < BitVec.ofInt 32 (t.fileDescTable d).pos := by
      rw [htpos]
      exact (size_lt_pos (by omega)).mpr hmore
    rcases run_growSize.mp hgrow with ⟨-, sb, -, -, rfl⟩ | ⟨hno, -⟩
    · have hsame := congrArg (fun T => (T i).fileSize) hr.inodes
      simp only [Fs.written, updInode_self, hp] at hsame
      rw [hsame] at hlt
      exact absurd hlt (BitVec.lt_irrefl _)
    · rw [htp] at hno
      exact hno hlt
  exact ⟨by omega, hall hinside (by omega)⟩

/-- **A READ INSIDE THE FILE**, byte for byte. -/
theorem read_run {pos len : Nat} (buf : Nat → Byte)
    (htype : (s.inodeTable i).fileType = TYPE_REGULAR)
    (hpos : (s.fileDescTable d).pos = pos)
    (hend : pos + len ≤ (s.inodeTable i).fileSize.toNat)
    (haddr : Addressable (s.inodeTable i) pos len) :
    ∃ s', doReadWriteRegular .read i d len buf s = .ok (len, put buf 0 len
        (drop (s.disk (s.inodeTable i).dev)
          (512 * (s.inodeTable i).sectStart.toNat + pos))) s' ∧
      Moved s s' (s.inodeTable i).dev d (s.disk (s.inodeTable i).dev) len := by
  obtain ⟨t, hmoved, hrun⟩ := regular_run .read buf rfl
    (Or.inl htype) hpos hend haddr
  refine ⟨t, hrun t (run_growSize.mpr (Or.inr ⟨?_, rfl⟩)), hmoved⟩
  have hint := haddr.1
  rw [hmoved.inodes, hmoved.descs, Function.update_self, hpos,
    ← Int.natCast_add, size_lt_pos (by omega)]
  omega

/-- **A READ** of a file returns exactly its bytes and changes nothing if and
    only if it ends inside the file, whose chunks have a place on the disk. -/
theorem read_exact_iff {len : Int} {buf : Nat → Byte}
    (htype : (s.inodeTable i).fileType = TYPE_REGULAR)
    (hsects : (s.inodeTable i).sectStart.toNat +
      (s.inodeTable i).fileSize.toNat / 512 < 4294967296)
    (hpos : 0 ≤ (s.fileDescTable d).pos) (hlen : 0 ≤ len) :
    (∃ ret buf' s', doReadWriteRegular .read i d len buf s =
        .ok (ret, buf') s' ∧ ReadExact s s' i d len buf buf' ret) ↔
      (s.fileDescTable d).pos + len ≤ (s.inodeTable i).fileSize.toNat ∧
        Addressable (s.inodeTable i) (s.fileDescTable d).pos len := by
  constructor
  · rintro ⟨ret, buf', s', hrun, hr⟩
    exact end_of_exact hsects hpos hlen hrun hr
  · rintro ⟨hend, haddr⟩
    obtain ⟨pos, hposn⟩ := Int.eq_ofNat_of_zero_le hpos
    obtain ⟨len, rfl⟩ := Int.eq_ofNat_of_zero_le hlen
    rw [hposn] at hend haddr
    obtain ⟨s', hrun, hmoved⟩ := read_run buf htype hposn (by omega)
      haddr
    refine ⟨_, _, s', hrun, ?_, ?_, fun k hk => ?_, fun k hk => ?_,
      hmoved.inodes, ?_⟩
    · rw [hposn]
      omega
    · rw [hmoved.descs, Function.update_self]
    · rw [put_of_in (by omega), drop, hposn, Nat.sub_zero, Int.toNat_natCast]
    · exact put_of_out (by omega)
    · rw [hmoved.disk, Function.update_eq_self]

/-- The ten bytes of a file of ten bytes. -/
theorem read_exact_iff_whole : ∃ ret buf' s',
    doReadWriteRegular .read demoInode demoDesc 10 (fun _ => 0x61)
        (demoFs 4749 10 0) = .ok (ret, buf') s' ∧
      ReadExact (demoFs 4749 10 0) s' demoInode demoDesc 10 (fun _ => 0x61)
        buf' ret :=
  (read_exact_iff rfl (by decide) (by decide) (by decide)).mpr
    ⟨by decide, by decide⟩

/-- Twenty bytes of a file of ten bytes: all twenty are returned, and the file
    grows. -/
theorem read_overruns :
    ¬ ∀ (s : Fs) (i : Fin NR_INODE) (d : Fin NR_FILE_DESC) (len : Int)
        (buf : Nat → Byte), (s.inodeTable i).fileType = TYPE_REGULAR →
      (s.inodeTable i).sectStart.toNat +
        (s.inodeTable i).fileSize.toNat / 512 < 4294967296 →
      0 ≤ (s.fileDescTable d).pos → 0 ≤ len →
      ∃ ret buf' s', doReadWriteRegular .read i d len buf s =
        .ok (ret, buf') s' ∧ ReadExact s s' i d len buf buf' ret := by
  intro hall
  obtain ⟨ret, buf', s', hrun, hr⟩ := hall (demoFs 4749 10 0) demoInode demoDesc
    20 (fun _ => 0x61) rfl (by decide) (by decide) (by decide)
  have hend := (end_of_exact (by decide) (by decide) (by decide) hrun hr).1
  exact absurd hend (by decide)

end Read

/-! ## Writing and reading back -/

/-- `fd` is a descriptor of the process for reading and writing the file. -/
structure Opened (s : Fs) (pid fd : Int) (d : Fin NR_FILE_DESC)
    (i : Fin NR_INODE) : Prop where
  slot : ∃ k : Fin NR_FILES, fd = k.val ∧ s.fileDesc pid k = some d
  mode : (s.fileDescTable d).mode &&& O_RDWR ≠ 0
  inode : (s.fileDescTable d).inode = some i
  regular : Regular (s.inodeTable i)

/-- A write of `data` at position `pos`, a seek back and a read. -/
structure RoundTrip (s s₁ s₂ s₃ : Fs) (pid fd : Int) (i : Fin NR_INODE)
    (pos len : Nat) (data data' buf buf' : Nat → Byte)
    (reply : Int × (Nat → Byte)) : Prop where
  write : doReadWrite .write pid fd len reply data s = .ok (len, data') s₁
  size : (s₁.inodeTable i).fileSize.toNat =
    max (s.inodeTable i).fileSize.toNat (pos + len)
  seek : doLseek pid fd pos SEEK_SET s₁ = .ok pos s₂
  read : doReadWrite .read pid fd len reply buf s₂ = .ok (len, buf') s₃
  same : ∀ k < len, buf' k = data k
  rest : ∀ dev a, (∀ sb, s.superOf dev = some sb →
      512 * sb.nr1stDataSect.toNat ≤ a) →
    ¬ (dev = (s.inodeTable i).dev ∧
      512 * (s.inodeTable i).sectStart.toNat + pos ≤ a ∧
      a < 512 * (s.inodeTable i).sectStart.toNat + pos + len) →
    s₃.disk dev a = s.disk dev a

section Trip

variable {s s' : Fs} {pid fd : Int} {d : Fin NR_FILE_DESC} {i : Fin NR_INODE}

/-- A descriptor in range passes the assert. -/
theorem run_fdSlot (k : Fin NR_FILES) : fdSlot (k.val : Int) s = .ok k s := by
  have hk : ((k.val : Int).toNat < NR_FILES ∧ 0 ≤ (k.val : Int)) := by
    have := k.isLt
    omega
  rw [fdSlot, dif_pos hk]
  rfl

/-- A transfer on an open regular file. -/
theorem doReadWrite_regular (io : Io) (len : Int) (reply : Int × (Nat → Byte))
    (buf : Nat → Byte) (h : Opened s pid fd d i) :
    doReadWrite io pid fd len reply buf s =
      doReadWriteRegular io i d len buf s := by
  obtain ⟨k, rfl, hslot⟩ := h.slot
  have htype : ¬ (s.inodeTable i).fileType &&& TYPE_MASK =
      TYPE_SPECIAL_CHAR := by
    rw [h.regular.2]
    decide
  rw [doReadWrite, run_bind_of (run_fdSlot k), run_get_bind]
  simp only [hslot, h.inode, if_neg h.mode, if_neg htype]

/-- `SEEK_SET` fails beyond the end and sets the position otherwise. -/
theorem doLseek_set {pos : Nat} (h : Opened s pid fd d i) :
    doLseek pid fd pos SEEK_SET s =
      if (s.inodeTable i).fileSize.toInt < pos then .ok (-1) s
      else .ok pos (s.updDesc d fun f => { f with pos := pos }) := by
  obtain ⟨k, rfl, hslot⟩ := h.slot
  rw [doLseek, run_bind_of (run_fdSlot k), run_get_bind]
  simp only [hslot, h.inode]
  have htarget : ∀ p z, seekPos p z pos SEEK_SET s = .ok (some (pos : Int)) s :=
    fun _ _ => rfl
  rw [run_bind_of (htarget _ _)]
  by_cases hpos : (s.inodeTable i).fileSize.toInt < pos
  · simp only [hpos, true_or, if_true]
    rfl
  · have hneg : ¬ ((s.inodeTable i).fileSize.toInt < pos ∨ (pos : Int) < 0) := by
      omega
    simp only [if_neg hneg, if_neg hpos]
    rfl

/-- The state behind the write still has the file open. -/
theorem opened_written {pos len : Nat} {data : Nat → Byte}
    (h : Opened s pid fd d i) (hw : Written s s' i d pos len data) :
    Opened s' pid fd d i := by
  refine ⟨?_, ?_, ?_, ?_⟩
  · rw [hw.slots]
    exact h.slot
  · rw [hw.descs, Function.update_self]
    exact h.mode
  · rw [hw.descs, Function.update_self]
    exact h.inode
  · rw [hw.inodes, Function.update_self]
    exact h.regular

/-- The size after a write. -/
theorem size_written {pos len : Nat} {data : Nat → Byte}
    (hint : pos + len < 2147483648) (hw : Written s s' i d pos len data) :
    (s'.inodeTable i).fileSize.toNat =
      max (s.inodeTable i).fileSize.toNat (pos + len) := by
  have hlt := (s.inodeTable i).fileSize.isLt
  rw [hw.inodes, Function.update_self, grown, BitVec.toNat_ofNat,
    Nat.mod_eq_of_lt (by omega)]

/-- A round trip that succeeds is addressable, and its size is an `int`. -/
theorem end_of_trip {pos len : Nat} {data data' buf buf' : Nat → Byte}
    {s₁ s₂ s₃ : Fs} {reply : Int × (Nat → Byte)} (hext : ExtentInvariant s)
    (hopen : Opened s pid fd d i) (hpos : (s.fileDescTable d).pos = pos)
    (hend : (pos : Int) + len ≤ capacity (s.inodeTable i))
    (h : RoundTrip s s₁ s₂ s₃ pid fd i pos len data data' buf buf' reply) :
    Addressable (s.inodeTable i) pos len ∧
      (s.inodeTable i).fileSize.toNat < 2147483648 := by
  obtain ⟨sb, -, -, -, -, -, hin⟩ := hext.entry i hopen.regular
  have hcap := hext.fits i hopen.regular
  have hlimit := limit_write hcap
  have hnr32 := sb.nrSects.isLt
  have hcapdef : capacity (s.inodeTable i) =
    (s.inodeTable i).nrSects.toNat * 512 := rfl
  have hwrite := h.write
  rw [doReadWrite_regular _ _ _ _ hopen] at hwrite
  obtain ⟨hint, t, n, -, hret, -, -, -, -, hall, -⟩ := regular_cases .write rfl hpos
    (by omega) hwrite
  have haddr := hall (by omega) (by omega)
  refine ⟨haddr, ?_⟩
  obtain ⟨s₁', hrun, hw⟩ := write_run data hext hopen.regular hpos hend
    haddr
  rw [hwrite] at hrun
  cases hrun
  have hseek := h.seek
  rw [doLseek_set (opened_written hopen hw)] at hseek
  have hsize := size_written hint hw
  split at hseek
  · have hminus : (-1 : Int) = pos := by
      injection hseek
    omega
  · rename_i hle
    have hlt := (s₁.inodeTable i).fileSize.isLt
    rw [BitVec.toInt_eq_toNat_cond] at hle
    split at hle <;> omega

/-- **WHAT IS WRITTEN IS READ BACK**, and nothing else in the data area
    changes, if and only if the chunks have a place on the disk and the size
    of the file is an `int`. -/
theorem round_trip_iff {pos len : Nat} {data buf : Nat → Byte}
    {reply : Int × (Nat → Byte)} (hext : ExtentInvariant s)
    (hopen : Opened s pid fd d i) (hpos : (s.fileDescTable d).pos = pos)
    (hend : (pos : Int) + len ≤ capacity (s.inodeTable i)) :
    (∃ s₁ s₂ s₃ data' buf',
      RoundTrip s s₁ s₂ s₃ pid fd i pos len data data' buf buf' reply) ↔
    Addressable (s.inodeTable i) pos len ∧
      (s.inodeTable i).fileSize.toNat < 2147483648 := by
  constructor
  · rintro ⟨s₁, s₂, s₃, data', buf', h⟩
    exact end_of_trip hext hopen hpos hend h
  · rintro ⟨haddr, hold⟩
    have hint : pos + len < 2147483648 := by
      have := haddr.1
      omega
    obtain ⟨s₁, hwrite, hw⟩ := write_run data hext hopen.regular hpos
      hend haddr
    have hopen₁ := opened_written hopen hw
    have hsize₁ := size_written hint hw
    obtain ⟨s₂, hs₂⟩ : ∃ s₂, s₂ = s₁.updDesc d fun f => { f with pos := pos } :=
      ⟨_, rfl⟩
    have hseek : doLseek pid fd pos SEEK_SET s₁ = .ok pos s₂ := by
      have hsmall : (s₁.inodeTable i).fileSize.toInt =
          (s₁.inodeTable i).fileSize.toNat :=
        BitVec.toInt_eq_toNat_of_lt (by omega)
      rw [doLseek_set hopen₁, if_neg (by omega), hs₂]
    -- the seek changes the position only
    have hino₂ : s₂.inodeTable i = grown (s.inodeTable i) (pos + len) := by
      rw [hs₂]
      show s₁.inodeTable i = _
      rw [hw.inodes, Function.update_self]
    have hdisk₂ : s₂.disk = s₁.disk := by rw [hs₂]; rfl
    have hdesc₂ : s₂.fileDescTable d =
        { s₁.fileDescTable d with pos := (pos : Int) } := by
      rw [hs₂, updDesc_self]
    have hopen₂ : Opened s₂ pid fd d i := by
      refine ⟨?_, ?_, ?_, ?_⟩
      · rw [hs₂]
        exact hopen₁.slot
      · rw [hdesc₂]
        exact hopen₁.mode
      · rw [hdesc₂]
        exact hopen₁.inode
      · rw [hs₂]
        exact hopen₁.regular
    have hpos₂ : (s₂.fileDescTable d).pos = pos := by rw [hdesc₂]
    have hend₂ : pos + len ≤ (s₂.inodeTable i).fileSize.toNat := by
      rw [hw.inodes, Function.update_self, ← hino₂] at hsize₁
      omega
    have haddr₂ : Addressable (s₂.inodeTable i) pos len := by
      rw [hino₂]
      exact haddr
    obtain ⟨s₃, hread, hmoved⟩ := read_run buf hopen₂.regular.2
      hpos₂ hend₂ haddr₂
    have hwrite' := (doReadWrite_regular .write len reply data hopen).trans hwrite
    have hread' := (doReadWrite_regular .read len reply buf hopen₂).trans hread
    refine ⟨s₁, s₂, s₃, data, _, ⟨hwrite', hsize₁, hseek, hread',
      fun k hk => ?_, fun dev a hdata hout => ?_⟩⟩
    · obtain ⟨sb, hsb, hnr, h0, hlt, hstart, -⟩ := hext.entry i hopen.regular
      rw [put_of_in (by omega), Nat.sub_zero, drop, hdisk₂, hino₂]
      show s₁.disk (s.inodeTable i).dev
        (512 * (s.inodeTable i).sectStart.toNat + pos + k) = _
      rw [hw.disk, put_at hk]
      intro sb' hsb' hent
      rw [hsb] at hsb'
      cases hsb'
      have := inEntry_lt hnr h0 hlt hent
      omega
    · rw [hmoved.disk, Function.update_eq_self, hdisk₂]
      by_cases hdev : dev = (s.inodeTable i).dev
      · subst hdev
        obtain ⟨sb, hsb, hnr, h0, hlt, -, -⟩ := hext.entry i hopen.regular
        rw [hw.disk, put_of_out (by omega)]
        intro sb' hsb' hent
        have hfront := hdata sb' hsb'
        rw [hsb] at hsb'
        cases hsb'
        have := inEntry_lt hnr h0 hlt hent
        omega
      · exact hw.devices dev a hdev

/-- The file of the examples is open. -/
theorem demoFs_opened (start size : BitVec 32) (pos : Int) :
    Opened (demoFs start size pos) 5 0 demoDesc demoInode := by
  have hmode : O_RDWR &&& O_RDWR ≠ 0 := by decide
  exact ⟨⟨⟨0, by decide⟩, rfl, rfl⟩, hmode, rfl, demoFs_regular _ _ _⟩

/-- A thousand bytes from the middle of a sector on. -/
theorem round_trip_iff_middle : ∃ s₁ s₂ s₃ data' buf',
    RoundTrip (demoFs 4749 300 300) s₁ s₂ s₃ 5 0 demoInode 300 1000
      (fun k => BitVec.ofNat 8 k) data' (fun _ => 0) buf' (0, fun _ => 0) :=
  (round_trip_iff (demoFs_extent (by decide)) (demoFs_opened _ _ _) rfl
    (by decide)).mpr ⟨by decide, by decide⟩

/-- A file whose sectors start at number 4194304: their byte positions are no
    `int`s. -/
theorem round_trip_overflows :
    ¬ ∀ (s : Fs) (pid fd : Int) (d : Fin NR_FILE_DESC) (i : Fin NR_INODE)
        (pos len : Nat) (data buf : Nat → Byte) (reply : Int × (Nat → Byte)),
      ExtentInvariant s → Opened s pid fd d i →
      (s.fileDescTable d).pos = pos →
      pos ≤ (s.inodeTable i).fileSize.toNat →
      (pos : Int) + len ≤ capacity (s.inodeTable i) →
      ∃ s₁ s₂ s₃ data' buf',
        RoundTrip s s₁ s₂ s₃ pid fd i pos len data data' buf buf' reply := by
  intro hall
  have hext : ExtentInvariant (demoFs 4194304 0 0) := demoFs_extent (by decide)
  obtain ⟨s₁, s₂, s₃, data', buf', h⟩ := hall _ 5 0 demoDesc demoInode 0 1
    (fun _ => 0x61) (fun _ => 0) (0, fun _ => 0) hext (demoFs_opened _ _ _) rfl
    (by decide) (by decide)
  have haddr := (end_of_trip hext (demoFs_opened _ _ _) rfl (by decide) h).1
  exact absurd haddr (by decide)

end Trip

end KosFileBytes
