import Kos.MapRunsProofs
import Mathlib.Order.Interval.Finset.Nat

/-! # Positions and sizes over whole runs

    The processes open files, move in them, read and write.

    * The tables alone do not keep the bounds: an open takes an inode from the
      disk.  So the invariant has the sizes of all allocated inodes, in the table
      and on the disk (`Inv`);
    * with it the bounds hold in every state of a run whose requests meet the
      condition (`bounds_kept`);
    * O_TRUNC leaves a descriptor behind the end of the file
      (`truncated_under_reader`). -/

namespace KosBoundsRuns

open FlatMemory (Byte)
open BitMap (bit)
open GuardedRun
open KosFs
open KosMkfs
open KosReadWrite
open KosOpenFile
open KosRequests
open KosInodeMap (inodeMap)
open KosRefusals (numberOf open_refused)
open KosDescriptor (Behind slotOf)
open KosInitFs (initFs newInodes tarInode tarName)
open KosTables
open KosRequestCounts
open KosDiskImage
open KosDiskSteps
open KosNewImage
open KosFileMaps
open KosBounds
open KosMapRuns (Kept onDisk kept_root kept_becomes kept_openOld kept_openNew kept_lseek
  kept_regular number_unused opened_entries cut_fields)

/-! ## The runs and the condition -/

/-- The requests of these runs. -/
def covered : Request → Prop
  | .open _ _ => True
  | .lseek _ _ _ => True
  | .readWrite _ _ len _ _ => 0 ≤ len
  | _ => False

/-- A process makes a request, and is answered. -/
def step (s : Fs) (e : Pid × Request) (t : Fs) : Prop :=
  covered e.2 ∧ ∃ ret, handle e.1.val e.2 s = .ok ret t

/-- FS has made a file system on a partition of `sectCnt` sectors. -/
def Boot (sectCnt : BitVec 32) (s : Fs) : Prop :=
  ∃ s₀, word (s₀.disk ROOT_DEV_NR) 512 ≠ MAGIC_V1 ∧
    (∀ pid k, s₀.fileDesc pid k = none) ∧ initFs sectCnt s₀ = .ok () s

/-- The bit of the number is set in the inode map. -/
def Allocated (s : Fs) (nr : Int) : Prop :=
  ∃ n : Nat, nr = n ∧ n < 4096 ∧ bit (inodeMap (s.disk ROOT_DEV_NR)) n = true

/-- The number that the path has is allocated, and its file is emptied only while
    the descriptors are at its start. -/
def OpenFits (s : Fs) (path : List Byte) (flags : BitVec 32) : Prop :=
  numberOf s path ≠ INVALID_INODE → flags &&& O_RDWR ≠ 0 →
    Allocated s (numberOf s path) ∧ TruncFits s path flags

/-- **THE CONDITION** on a request: the root directory is read only, up to its
    end. -/
def guard (s : Fs) (e : Pid × Request) : Prop :=
  match e.2 with
  | .open pathname flags => OpenFits s (pathname.takeWhile (· ≠ 0)) flags
  | .readWrite io fd len _ _ => ∀ d i, Behind s e.1.val fd d i →
      (s.fileDescTable d).mode &&& O_RDWR ≠ 0 →
      ((s.inodeTable i).fileType = TYPE_REGULAR →
        TransferFits io (s.inodeTable i) (s.fileDescTable d).pos len) ∧
      ((s.inodeTable i).fileType = TYPE_DIRECTORY → io = .read ∧
        (s.fileDescTable d).pos + len ≤ (s.inodeTable i).fileSize.toNat)
  | _ => True

/-! ## The invariant -/

/-- The tables and the disk belong together, the directory has no more entries
    than there are inodes, and the sizes are within the sectors. -/
structure Inv (sb : SuperBlock) (live : Finset Nat) (s : Fs) : Prop where
  kept : Kept sb live s
  few : entries (imageIn sb s) ≤ live.card
  sizes : ∀ n ∈ live, SizeFits ((imageIn sb s).inode n)
  tables : KosBounds.Inv s

section Inv

variable {sb : SuperBlock} {live : Finset Nat} {s t : Fs} {p q : Inode} {n : Nat}
  {path : List Byte}

theorem sizeFits_congr (htype : q.fileType = p.fileType)
    (hsects : q.nrSects = p.nrSects) (hsize : q.fileSize.toNat ≤ p.fileSize.toNat)
    (h : SizeFits p) : SizeFits q := by
  intro hreg
  have hle := h (htype ▸ hreg)
  rw [hsects]
  omega

/-- There are no more than the inode map has bits. -/
theorem few_entries (h : Inv sb live s) : entries (imageIn sb s) ≤ 4095 := by
  have hsub : live ⊆ Finset.Ico 1 4096 := fun n hn =>
    Finset.mem_Ico.mpr (h.kept.maps.range n hn)
  have hcard := Finset.card_le_card hsub
  rw [Nat.card_Ico] at hcard
  exact h.few.trans hcard

/-- An inode of the image is the one on the disk. -/
theorem onDisk_live (h : Kept sb live s) (hn : n ∈ live) :
    (imageIn sb s).inode n = onDisk sb s n := by
  obtain ⟨h1, h2⟩ := h.maps.range n hn
  exact if_pos ⟨h1, by omega⟩

theorem live_of_allocated (h : Kept sb live s) (hnr : numberOf s path ≠ INVALID_INODE)
    (halloc : Allocated s (numberOf s path)) : ∃ n ∈ live, numberOf s path = n := by
  obtain ⟨n, hn, hlt, hbit⟩ := halloc
  refine ⟨n, live_of_bit h.maps (fun h0 => hnr ?_) ?_, hn⟩
  · rw [hn, h0]
    rfl
  · show (decide (n < 4096) && _) = true
    rw [decide_eq_true hlt, Bool.true_and]
    exact hbit

/-- What an open reads from the disk fits. -/
theorem load_fits (h : Inv sb live s) (hn : n ∈ live) (hnr : numberOf s path = n) :
    LoadFits s path := by
  obtain ⟨hroot, -, -⟩ := kept_root h.kept
  intro sb' _ hsb
  rw [hroot.dev, h.kept.super] at hsb
  cases hsb
  have hsize := h.sizes n hn
  rw [onDisk_live h.kept hn] at hsize
  rw [hroot.dev, hnr]
  exact hsize

/-- Nothing has changed. -/
theorem inv_same (h : Inv sb live s) (ht : SameTables s t) (hdisk : t.disk = s.disk) :
    Inv sb live t := by
  have himage : imageIn sb t = imageIn sb s := by rw [imageIn, imageIn, hdisk]
  have hb : Becomes sb s (imageIn sb s) t := ⟨ht, himage⟩
  refine ⟨kept_becomes hb h.kept.super (alike_counted (alike_same ht) h.kept.counted)
    h.kept.maps h.kept.loaded, ?_, ?_, inv_congr ht h.tables⟩
  · rw [himage]
    exact h.few
  · rw [himage]
    exact h.sizes

end Inv

/-! ## One request -/

section Requests

variable {sb : SuperBlock} {live : Finset Nat} {s t : Fs} {p : Pid} {b n : Nat}
  {fd len ret : Int} {pathname path : List Byte} {flags : BitVec 32}

/-- A new file is empty, and the directory has one entry more at most. -/
theorem created_fits (h : Inv sb live s) (hnew : KosMapRuns.Created sb s t path b) :
    entries (imageIn sb t) ≤ (insert b live).card ∧
      ∀ n ∈ insert b live, SizeFits ((imageIn sb t).inode n) := by
  obtain ⟨name, β, k, free, g, i, -, hroom, -, -, himage, -⟩ := hnew
  obtain ⟨-, hdir, hsize⟩ := kept_root h.kept
  obtain ⟨-, hfresh, -⟩ :=
    KosFileMaps.free_pos h.kept.maps hroom.inodeClear hroom.sectsClear
  have hfew := few_entries h
  obtain ⟨r, hr⟩ : ∃ r, r = grown free (s.inodeTable s.rootInode) := ⟨_, rfl⟩
  have hroot : (imageIn sb t).inode 1 = asStored 1 r := by
    rw [himage, hr]
    exact setInode_same ..
  have hrsize : r.fileSize.toNat / 16 ≤ entries (imageIn sb s) + 1 := by
    rw [hsize] at hfew ⊢
    rw [hr, grown]
    split
    · omega
    · dsimp only
      rw [BitVec.toNat_add, show (16 : BitVec 32).toNat = 16 from rfl]
      omega
  constructor
  · rw [Finset.card_insert_of_notMem hfresh, entries, hroot]
    exact hrsize.trans (Nat.succ_le_succ h.few)
  · intro n hn
    by_cases h1 : n = 1
    · rw [h1, hroot]
      intro hreg
      have htype : r.fileType = TYPE_DIRECTORY := by
        rw [hr, (KosMapRuns.grown_fields free _).1]
        exact hdir
      rw [show (asStored 1 r).fileType = r.fileType from rfl, htype] at hreg
      exact absurd hreg (by decide)
    · have hinode : (imageIn sb t).inode n = if n = b then asStored b
          (newInode ROOT_DEV_NR b (KosSectorMap.sectorNr sb β))
          else (imageIn sb s).inode n := by
        rw [himage, Image.withEntry, ← hr, setInode_other _ h1 r]
        exact Function.update_apply (imageIn sb s).inode b _ n
      rw [hinode]
      by_cases hb : n = b
      · rw [if_pos hb]
        exact fun _ => Nat.zero_le _
      · rw [if_neg hb]
        exact h.sizes n ((Finset.mem_insert.mp hn).resolve_left hb)

/-- **`do_open`** keeps the invariant. -/
theorem inv_open (hfits : Fits sb) (h : Inv sb live s)
    (hg : OpenFits s (pathname.takeWhile (· ≠ 0)) flags)
    (hrun : doOpen p.val pathname flags s = .ok ret t) : ∃ live', Inv sb live' t := by
  rcases doOpen_tables hrun with ⟨rfl, hsame⟩ | ⟨fd, d, i, w, -, -, hret, hloc, -⟩
  · exact ⟨live, inv_same h hsame (open_refused hrun).disk⟩
  have hok : ret ≠ -1 := by omega
  have hunused := number_unused h.kept (pathname.takeWhile (· ≠ 0)) flags
  have hc : Counted t := (open_iff h.kept.counted hok hrun).mpr hunused
  have htables : KosBounds.Inv t := by
    refine KosBounds.inv_open h.tables hunused (fun hnr hflags => ?_) hrun
    obtain ⟨halloc, htrunc⟩ := hg hnr hflags
    obtain ⟨n, hn, hnumber⟩ := live_of_allocated h.kept hnr halloc
    exact ⟨htrunc, load_fits h hn hnumber⟩
  cases hloc with
  | created start free hnr hflags hfirst hb hentry =>
      obtain ⟨b, -, hnew, ht⟩ := kept_openNew hfits h.kept
        ((few_entries h).trans (by decide)) hnr hok hrun hc
      obtain ⟨hfew, hsizes⟩ := created_fits h hnew
      exact ⟨_, ht, hfew, hsizes, htables⟩
  | existing hnr hflags hobt =>
      obtain ⟨n, hn, hnumber⟩ := live_of_allocated h.kept hnr (hg hnr hflags).1
      obtain ⟨hopened, ht⟩ := kept_openOld hfits h.kept hn hnumber hok hrun hc
      obtain ⟨-, hsize⟩ := opened_entries hopened
      refine ⟨live, ht, hsize.trans h.few, fun j hj => ?_, htables⟩
      obtain ⟨q, hstored, himage, -⟩ := hopened
      rw [himage]
      by_cases hjn : j = n
      · obtain ⟨htype, -, hsects, -, -, hle⟩ := cut_fields flags q
        rw [hjn, setInode_same]
        refine sizeFits_congr (p := asStored n q) htype hsects hle ?_
        rw [← hstored]
        exact h.sizes n hn
      · rw [setInode_other _ hjn]
        exact h.sizes j hj

/-- **`do_lseek`** keeps the invariant. -/
theorem inv_lseek {off whence : Int} (h : Inv sb live s)
    (hrun : doLseek p.val fd off whence s = .ok ret t) : Inv sb live t := by
  have hc := alike_counted (alike_lseek hrun) h.kept.counted
  obtain ⟨himage, ht⟩ := kept_lseek h.kept hrun hc
  refine ⟨ht, ?_, ?_, KosBounds.inv_lseek h.tables hrun⟩
  · rw [himage]
    exact h.few
  · rw [himage]
    exact h.sizes

/-- **A READ OF THE DIRECTORY** up to its end keeps the invariant. -/
theorem inv_readDir {d : Fin NR_FILE_DESC} {i : Fin NR_INODE} {buf : Nat → Byte}
    {r : Int × (Nat → Byte)} (hfits : Fits sb) (h : Inv sb live s)
    (hi : (s.fileDescTable d).inode = some i)
    (hdir : (s.inodeTable i).fileType = TYPE_DIRECTORY) (hlen : 0 ≤ len)
    (hend : (s.fileDescTable d).pos + len ≤ (s.inodeTable i).fileSize.toNat)
    (hrun : doReadWriteRegular .read i d len buf s = .ok r t) (hc : Counted t) :
    Inv sb live t := by
  obtain ⟨hdev, -⟩ := h.kept.loaded.entry i (h.tables.held d i hi)
  have hpos := h.kept.loaded.pos d (by
    rw [hi]
    exact Option.some_ne_none i)
  obtain ⟨k, hlt, hb⟩ := becomes_read hfits.made rfl hdev hpos.1 hlen hend hrun
  obtain ⟨pos, hmoved⟩ : ∃ pos, pos = (s.fileDescTable d).pos + k := ⟨_, rfl⟩
  have hadv : advanced d k s = s.updDesc d fun f => { f with pos := pos } := by
    rw [hmoved]
    rfl
  rw [hadv] at hb
  refine ⟨kept_becomes hb h.kept.super hc h.kept.maps
    (loaded_updDesc h.kept.loaded fun _ => ⟨by dsimp only; omega, by dsimp only; omega⟩),
    ?_, ?_, inv_congr hb.tables (inv_position h.tables fun j hj hreg => ?_)⟩
  · rw [hb.image]
    exact h.few
  · rw [hb.image]
    exact h.sizes
  · cases hi.symm.trans hj
    rw [hdir] at hreg
    exact absurd hreg (by decide)

/-- **A TRANSFER** keeps the invariant. -/
theorem inv_transfer {io : Io} {d : Fin NR_FILE_DESC} {i : Fin NR_INODE}
    {buf : Nat → Byte} {r : Int × (Nat → Byte)} (hfits : Fits sb) (h : Inv sb live s)
    (hi : (s.fileDescTable d).inode = some i) (hlen : 0 ≤ len)
    (hreg : (s.inodeTable i).fileType = TYPE_REGULAR →
      TransferFits io (s.inodeTable i) (s.fileDescTable d).pos len)
    (hdir : (s.inodeTable i).fileType = TYPE_DIRECTORY → io = .read ∧
      (s.fileDescTable d).pos + len ≤ (s.inodeTable i).fileSize.toNat)
    (hrun : doReadWriteRegular io i d len buf s = .ok r t) (hc : Counted t) :
    Inv sb live t := by
  have htype : (s.inodeTable i).fileType = TYPE_REGULAR ∨
      (s.inodeTable i).fileType = TYPE_DIRECTORY := by
    obtain ⟨ret, buf'⟩ := r
    exact ((run_regular rfl rfl).mp hrun).1
  rcases htype with hregular | hdirectory
  · obtain ⟨n, -, hn1, himage, ht⟩ := kept_regular hfits h.kept hi hregular hrun hc
    have htables := inv_regular h.tables hi hlen hreg hrun
    refine ⟨ht, ?_, fun j hj => ?_, htables⟩
    · rw [himage, entries, setInode_other _ (Ne.symm hn1)]
      exact h.few
    · rw [himage]
      by_cases hjn : j = n
      · rw [hjn, setInode_same]
        exact htables.bounds.size i
      · rw [setInode_other _ hjn]
        exact h.sizes j hj
  · obtain ⟨rfl, hend⟩ := hdir hdirectory
    exact inv_readDir hfits h hi hdirectory hlen hend hrun hc

/-- One request. -/
theorem inv_step (hfits : Fits sb) (h : Inv sb live s) {e : Pid × Request}
    (hg : guard s e) (hs : step s e t) : ∃ live', Inv sb live' t := by
  obtain ⟨p, req⟩ := e
  obtain ⟨hcov, ret, hrun⟩ := hs
  cases req with
  | «open» pathname flags => exact inv_open hfits h hg hrun
  | lseek fd off whence => exact ⟨live, inv_lseek h hrun⟩
  | readWrite io fd len reply buf =>
      obtain ⟨r, u, hrw, hret⟩ := run_bind.mp hrun
      cases hret
      have hc := alike_counted (alike_readWrite hrw) h.kept.counted
      rcases doReadWrite_tables hrw with rfl | ⟨d, i, hb, hmode, hreg⟩
      · exact ⟨live, h⟩
      · obtain ⟨hregular, hdir⟩ := hg d i hb hmode
        exact ⟨live, inv_transfer hfits h hb.2 hcov hregular hdir hreg hc⟩
  | close fd => exact hcov.elim
  | unlink pathname => exact hcov.elim
  | stat pathname => exact hcov.elim

end Requests

/-! ## Runs -/

section Runs

variable {sb : SuperBlock} {m : Image} {s : Fs} {n : Nat} {sectCnt : BitVec 32}

/-- The sizes of the first files, `cmd.tar` among them, are within their
    sectors. -/
theorem new_sizes (h : NewImage sb m) (hn : n ∈ firstInodes) :
    SizeFits (m.inode n) := by
  obtain ⟨h1, h2⟩ := mem_firstInodes.mp hn
  obtain ⟨j, rfl⟩ : ∃ j, n = j + 1 := ⟨n - 1, by omega⟩
  have hj : j < (newInodes sb).length := show j < 5 by omega
  rw [h.inode j hj]
  rcases (show j = 0 ∨ j = 1 ∨ j = 2 ∨ j = 3 ∨ j = 4 by omega) with
    rfl | rfl | rfl | rfl | rfl
  · exact fun hreg => absurd hreg (by decide : TYPE_DIRECTORY ≠ TYPE_REGULAR)
  · exact fun hreg => absurd hreg (by decide : TYPE_SPECIAL_CHAR ≠ TYPE_REGULAR)
  · exact fun hreg => absurd hreg (by decide : TYPE_SPECIAL_CHAR ≠ TYPE_REGULAR)
  · exact fun hreg => absurd hreg (by decide : TYPE_SPECIAL_CHAR ≠ TYPE_REGULAR)
  · exact fun _ => (by decide : tarInode.fileSize.toNat ≤ 512 * tarInode.nrSects.toNat)

/-- **A NEW FILE SYSTEM** meets the invariant. -/
theorem inv_boot (hcond : 2048 ≤ sectCnt.toNat ∧ sectCnt.toNat < 124768256)
    (h : Boot sectCnt s) : Fits (superBlock sectCnt ROOT_DEV_NR) ∧
      Inv (superBlock sectCnt ROOT_DEV_NR) firstInodes s := by
  obtain ⟨s₀, hold, hnone, hrun⟩ := h
  obtain ⟨hfits, hinv⟩ := KosMapRuns.inv_boot (s := ⟨s, firstInodes⟩) hcond.1 hcond.2
    ⟨rfl, s₀, hold, hnone, hrun⟩
  obtain ⟨-, -, himage, -⟩ := boot_image hcond.1 hcond.2 hold hrun
  exact ⟨hfits, hinv.kept, (entries_new himage).le, fun n hn => new_sizes himage hn,
    inv_fresh ⟨sectCnt, s₀, hold, hrun⟩⟩

/-- **THE BOUNDS** hold in every state of a run from a new file system in which
    each request meets the condition, and the sizes on the disk are within the
    sectors as well. -/
theorem bounds_kept (hcond : 2048 ≤ sectCnt.toNat ∧ sectCnt.toNat < 124768256)
    (h : Reach (Boot sectCnt) step guard s) :
    Bounds s ∧ ∀ n : Nat, n ≠ 0 → Allocated s n →
      SizeFits (onDisk (superBlock sectCnt ROOT_DEV_NR) s n) := by
  obtain ⟨-, live, hs⟩ : Fits (superBlock sectCnt ROOT_DEV_NR) ∧
      ∃ live, Inv (superBlock sectCnt ROOT_DEV_NR) live s :=
    reach_invariant (fun s => Fits (superBlock sectCnt ROOT_DEV_NR) ∧
        ∃ live, Inv (superBlock sectCnt ROOT_DEV_NR) live s)
      (fun s hs => ⟨(inv_boot hcond hs).1, firstInodes, (inv_boot hcond hs).2⟩)
      (fun s e t ⟨hfits, live, hs⟩ hg hstep => ⟨hfits, inv_step hfits hs hg hstep⟩) h
  refine ⟨hs.tables.bounds, fun n hn ⟨j, hj, hlt, hbit⟩ => ?_⟩
  obtain rfl : n = j := Int.ofNat_inj.mp hj
  have hlive : n ∈ live := by
    refine live_of_bit hs.kept.maps hn ?_
    show (decide (n < 4096) && _) = true
    rw [decide_eq_true hlt, Bool.true_and]
    exact hbit
  rw [← onDisk_live hs.kept hlive]
  exact hs.sizes n hlive

/-- Checks of the condition on two requests: to open `cmd.tar` and to read ten
    bytes of it. -/
def tarFits (s : Fs) : Bool :=
  numberOf s tarName = 5 ∧ bit (inodeMap (s.disk ROOT_DEV_NR)) 5

/-- Ten bytes more fit into the sectors of the file. -/
def tenFit (s : Fs) : Bool :=
  (slotOf s 5 0).all fun d => (s.fileDescTable d).inode.all fun i =>
    (s.inodeTable i).fileType = TYPE_REGULAR ∧
      (s.fileDescTable d).pos + 10 ≤ 512 * (s.inodeTable i).nrSects.toNat

/-- `cmd.tar` is opened and read from. -/
theorem bounds_kept_reader : ∃ s t u, Boot 40960 s ∧
    step s (5, .open tarName O_RDWR) t ∧
    step t (5, .readWrite .read 0 10 (0, fun _ => 0) fun _ => 0) u ∧
    Bounds u := by
  have hrun : ((outcome (initFs 40960 blankFs)).bind fun p =>
      (outcome (handle 5 (.open tarName O_RDWR) p.2)).bind fun q =>
        (outcome (handle 5 (.readWrite .read 0 10 (0, fun _ => 0) fun _ => 0)
          q.2)).map fun _ => (tarFits p.2, tenFit q.2)) =
      some (true, true) := by decide +kernel
  obtain ⟨⟨_, s⟩, hs, hrun⟩ := Option.bind_eq_some_iff.mp hrun
  obtain ⟨⟨r₁, t⟩, ht, hrun⟩ := Option.bind_eq_some_iff.mp hrun
  obtain ⟨⟨r₂, u⟩, hu, hfits⟩ := Option.map_eq_some_iff.mp hrun
  obtain ⟨hopen, hread⟩ := Prod.mk.inj hfits
  have hboot : Boot 40960 s := ⟨blankFs, by decide, fun _ _ => rfl, outcome_eq_some.mp hs⟩
  have hstep₁ : step s (5, .open tarName O_RDWR) t :=
    ⟨trivial, r₁, outcome_eq_some.mp ht⟩
  have hstep₂ : step t (5, .readWrite .read 0 10 (0, fun _ => 0) fun _ => 0) u :=
    ⟨(by decide : (0 : Int) ≤ 10), r₂, outcome_eq_some.mp hu⟩
  have hguard₁ : guard s (5, .open tarName O_RDWR) := by
    obtain ⟨hnr, hbit⟩ : numberOf s tarName = 5 ∧
      bit (inodeMap (s.disk ROOT_DEV_NR)) 5 = true := of_decide_eq_true hopen
    show OpenFits s (tarName.takeWhile (· ≠ 0)) O_RDWR
    rw [show tarName.takeWhile (· ≠ 0) = tarName by decide]
    exact fun _ _ => ⟨⟨5, hnr, by decide, hbit⟩, fun htrunc => absurd rfl htrunc⟩
  have hguard₂ : guard t
      (5, .readWrite .read 0 10 (0, fun _ => 0) fun _ => 0) := by
    intro d i hb _
    have hfit : tenFit t = true := hread
    rw [tenFit, show slotOf t 5 0 = some d from hb.1, Option.all_some, hb.2,
      Option.all_some] at hfit
    obtain ⟨hreg, hle⟩ := of_decide_eq_true hfit
    refine ⟨fun _ => Or.inl hle, fun hdir => ?_⟩
    rw [hreg] at hdir
    exact absurd hdir (by decide)
  exact ⟨s, t, u, hboot, hstep₁, hstep₂, (bounds_kept (by decide)
    (.next (.next (.start hboot) hguard₁ hstep₁) hguard₂ hstep₂)).1⟩

/-- A run without conditions. -/
theorem reach_served {rs : List (Pid × Request)} {s t : Fs}
    (hs : Reach (Boot sectCnt) step free s) (hcov : ∀ r ∈ rs, covered r.2)
    (h : served s (rs.map fun r => ((r.1.val : Int), r.2)) = some t) :
    Reach (Boot sectCnt) step free t := by
  induction rs generalizing s with
  | nil =>
      cases h
      exact hs
  | cons r rest ih =>
      obtain ⟨pid, req⟩ := r
      obtain ⟨ret, u, hrun, hrest⟩ := served_cons.mp h
      have hstep : step s (pid, req) u :=
        ⟨hcov _ List.mem_cons_self, ret, hrun⟩
      exact ih (.next hs trivial hstep)
        (fun r hr => hcov r (List.mem_cons_of_mem _ hr)) hrest

/-- A process opens `cmd.tar` and reads ten bytes; another opens it with
    O_TRUNC. -/
def underReader (reader writer : Pid) : List (Pid × Request) :=
  [(reader, .open tarName O_RDWR),
    (reader, .readWrite .read 0 10 (0, fun _ => 0) fun _ => 0),
    (writer, .open tarName (O_RDWR ||| O_TRUNC))]

/-- A descriptor ten bytes behind the end of an empty file. -/
theorem truncated_under_reader : ¬ ∀ (sectCnt : BitVec 32) (s : Fs),
    2048 ≤ sectCnt.toNat ∧ sectCnt.toNat < 124768256 →
      Reach (Boot sectCnt) step free s → Bounds s := by
  intro hall
  have hrun : ((outcome (initFs 40960 blankFs)).bind fun p =>
      (served p.2 ((underReader 5 6).map fun r => ((r.1.val : Int), r.2))).map fun s =>
        (slotOf s 5 0).any fun d => (s.fileDescTable d).inode.any fun i =>
          (s.inodeTable i).fileType = TYPE_REGULAR ∧
            ¬ (s.fileDescTable d).pos ≤ (s.inodeTable i).fileSize.toNat) =
      some true := by decide +kernel
  obtain ⟨⟨_, s⟩, hs, hrun⟩ := Option.bind_eq_some_iff.mp hrun
  obtain ⟨t, ht, hbad⟩ := Option.map_eq_some_iff.mp hrun
  have hcov : ∀ r ∈ underReader 5 6, covered r.2 := by
    simp [underReader, covered]
  have hboot : Boot 40960 s := ⟨blankFs, by decide, fun _ _ => rfl, outcome_eq_some.mp hs⟩
  have hreach := reach_served (.start hboot) hcov ht
  obtain ⟨d, -, hd⟩ := (Option.any_eq_true ..).mp hbad
  obtain ⟨i, hi, hbehind⟩ := (Option.any_eq_true ..).mp hd
  obtain ⟨htype, hlt⟩ := of_decide_eq_true hbehind
  exact hlt ((hall 40960 t (by decide) hreach).position d i hi htype).2

end Runs

end KosBoundsRuns
