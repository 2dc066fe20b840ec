import Kos.EvaluationProofs
import Kos.FileMapsProofs
import Kos.ReferenceCountsProofs

/-! # The maps over whole runs

    Files are created, opened, read, written, closed and removed.

    * `Agrees` is what the maps have to say of the live inodes;
    * on a partition where the extents of a new file system are apart and in
      the data area it holds in every state a run reaches (`maps_agree`);
    * on a partition of less than 2048 sectors it does not hold in the first
      (`small_partition`). -/

namespace KosMapRuns

open FlatMemory (Byte)
open Overlay
open BitMap (bit FirstClear)
open GuardedRun
open RefCount
open KosFs
open KosMkfs
open KosFileNames
open KosReadWrite
open KosOpenFile
open KosUnlink
open KosRequests
open KosInodeMap (inodeMap)
open KosSectorMap (sectorNr mapSize mapOf)
open KosRootDirectory (RootDir numAt)
open KosRefusals (numberOf)
open KosDescriptor (slotOf Behind)
open KosInitFs (initFs mkfs createSectorMap rootInodeOf tarInode newInodes freeEntry)
open KosMkfsImage (Extent extentOf)
open KosTables
open KosBounds (cut truncated_eq reached extended_advanced blankFs)
open KosRequestCounts
open KosEvaluation
open KosReferenceCounts (succeeded request_iff)
open KosDiskImage
open KosDiskSteps
open KosDiskRegions
open KosDiskRequests
open KosNewImage
open KosFileMaps

/-! ## The invariant -/

/-- The image of the disk and the tables belong to the live inodes. -/
structure Consistent (sb : SuperBlock) (m : Image) (live : Finset Nat) (s : Fs) :
    Prop where
  maps : Maps sb m live
  listed : Listed m live
  loaded : Loaded m live s

/-- The tables, the inodes and the maps of these live inodes, whatever stands in
    the directory. -/
structure Kept (sb : SuperBlock) (live : Finset Nat) (s : Fs) : Prop where
  super : s.superOf ROOT_DEV_NR = some sb
  counted : Counted s
  maps : Maps sb (imageIn sb s) live
  loaded : Loaded (imageIn sb s) live s

/-- The state of a file system with these live inodes. -/
structure Inv (sb : SuperBlock) (live : Finset Nat) (s : Fs) : Prop where
  super : s.superOf ROOT_DEV_NR = some sb
  counted : Counted s
  files : Consistent sb (imageIn sb s) live s

section Facts

variable {sb : SuperBlock} {live : Finset Nat} {s t w : Fs} {m : Image} {n : Nat}
  {i j : Fin NR_INODE} {r : Inode}

/-- The invariant without the directory. -/
theorem Inv.kept (h : Inv sb live s) : Kept sb live s :=
  ⟨h.super, h.counted, h.files.maps, h.files.loaded⟩

/-- The facts carried over to a state with another image. -/
theorem kept_becomes (h : Becomes sb w m t) (hsuper : w.superOf ROOT_DEV_NR = some sb)
    (hc : Counted t) (hmaps : Maps sb m live) (hloaded : Loaded m live w) :
    Kept sb live t := by
  refine ⟨(superOf_congr h.tables.supers).trans hsuper, hc, ?_, ?_⟩
  · rw [h.image]
    exact hmaps
  · rw [h.image]
    exact loaded_congr h.tables hloaded

/-- So is the agreement of the image. -/
theorem consistent_becomes (h : Becomes sb w m t) (hc : Consistent sb m live w) :
    Consistent sb (imageIn sb t) live t := by
  rw [h.image]
  exact ⟨hc.maps, hc.listed, loaded_congr h.tables hc.loaded⟩

/-- The root inode is in use. -/
theorem root_used (h : Counted s) : (s.inodeTable s.rootInode).cnt ≠ 0 := by
  have huses := h.exact.uses s.rootInode
  have hheld := exact_held_nonneg h.exact s.rootInode
  rw [atRoot, if_pos rfl] at huses
  have hcnt : (s.inodeTable s.rootInode).cnt =
      held (refs s) s.rootInode + 1 := huses
  omega

/-- The directory is where the image has it. -/
theorem kept_root (h : Kept sb live s) :
    AtRoot sb s s.rootInode (s.inodeTable s.rootInode) ∧
      (s.inodeTable s.rootInode).fileType = TYPE_DIRECTORY ∧
      entries (imageIn sb s) = (s.inodeTable s.rootInode).fileSize.toNat / 16 := by
  obtain ⟨hdev, n, -, hnr, hstored⟩ := h.loaded.entry s.rootInode (root_used h.counted)
  have hroot := h.loaded.root
  have hn : n = 1 := by
    rw [hnr, show ROOT_INODE_NR = 1 from rfl] at hroot
    omega
  rw [hn] at hstored
  have hkind := h.maps.kind 1 h.maps.root
  rw [Kind, if_pos rfl, hstored] at hkind
  refine ⟨⟨rfl, hdev, hroot, ⟨hkind.2.start, hkind.2.sects, hkind.2.size⟩, hstored⟩,
    hkind.1, ?_⟩
  rw [entries, hstored]
  rfl

/-- The root inode while FS runs. -/
theorem root_facts (h : Inv sb live s) :
    AtRoot sb s s.rootInode (s.inodeTable s.rootInode) ∧
      (s.inodeTable s.rootInode).fileType = TYPE_DIRECTORY ∧
      (s.inodeTable s.rootInode).fileSize.toNat / 16 ≤ 4096 := by
  obtain ⟨hroot, hdir, hsize⟩ := kept_root h.kept
  exact ⟨hroot, hdir, hsize ▸ h.files.listed.few⟩

/-- A loaded inode is the stored one. -/
theorem cached_stored (h : Kept sb live s)
    (hc : s.cached ROOT_DEV_NR n = some j) :
    (imageIn sb s).inode n = asStored n (s.inodeTable j) := by
  obtain ⟨hused, hkey⟩ := cached_some hc
  obtain ⟨-, k, -, hnr, hstored⟩ := h.loaded.entry j hused
  have hkn : k = n := by
    have hnr' : (s.inodeTable j).nr = n := congrArg Prod.snd hkey
    omega
  rw [← hkn]
  exact hstored

/-- No other entry in use is of the number. -/
theorem others (h : Kept sb live s) (hi : (s.inodeTable i).cnt ≠ 0)
    (hnr : (s.inodeTable i).nr = n) (j : Fin NR_INODE) (hj : j ≠ i)
    (hused : (s.inodeTable j).cnt ≠ 0) : (s.inodeTable j).nr ≠ n := by
  intro hjn
  refine hj (h.counted.distinct j i hused hi (Prod.ext ?_ (hjn.trans hnr.symm)))
  exact (h.loaded.entry j hused).1.trans (h.loaded.entry i hi).1.symm

/-- What was obtained is in one entry. -/
theorem obtained_eq {dev nr : Int} (h : Obtained s dev nr i w) :
    w = s.updInode i fun _ => w.inodeTable i := by
  cases h with
  | cached _ =>
      rw [updInode_self]
      rfl
  | loaded _ _ _ _ =>
      rw [updInode_self]

/-- No other slot holds the number that was obtained. -/
theorem obtained_others (h : Kept sb live s)
    (hobt : Obtained s ROOT_DEV_NR n i w) (j : Fin NR_INODE) (hj : j ≠ i)
    (hused : (s.inodeTable j).cnt ≠ 0) : (s.inodeTable j).nr ≠ n := by
  intro hjn
  exact (taken_obtained h.counted hobt).new j hj hused
    (Prod.ext (h.loaded.entry j hused).1 hjn)

/-- The entry of the root inode is not given to another. -/
theorem obtained_root (h : Kept sb live s) (hobt : Obtained s ROOT_DEV_NR n i w)
    (hi : i = s.rootInode) : n = 1 := by
  subst hi
  have hroot := h.loaded.root
  cases hobt with
  | cached hc =>
      have hnr : (s.inodeTable s.rootInode).nr = n :=
        congrArg Prod.snd (cached_some hc).2
      rw [hnr, show ROOT_INODE_NR = 1 from rfl] at hroot
      omega
  | loaded _ _ hfree _ =>
      exact absurd (freeInode_zero hfree) (root_used h.counted)

/-- The bits and the files of the image, as the functions need them. -/
theorem image_bits (h : Kept sb live s) : (imageIn sb s).inodeBit 0 = true ∧
    (imageIn sb s).inodeBit 1 = true :=
  ⟨(h.maps.inodes.used_iff 0).mpr (Or.inl rfl),
    bit_of_live h.maps h.maps.root⟩

/-- **THE CONDITION** on the counts: the number of a new file is that of no inode
    in use. -/
theorem number_unused (h : Kept sb live s) (path : List Byte)
    (flags : BitVec 32) : NumberUnused s path flags := by
  intro _ _ b hb
  cases hc : s.cached (s.inodeTable s.rootInode).dev b with
  | none => rfl
  | some j =>
      obtain ⟨hused, hkey⟩ := cached_some hc
      obtain ⟨-, n, hn, hnr, -⟩ := h.loaded.entry j hused
      have hbn : n = b := by
        have hnr' : (s.inodeTable j).nr = b := congrArg Prod.snd hkey
        omega
      -- the bit of a live inode is set
      have hset := bit_of_live h.maps hn
      rw [(kept_root h).1.dev] at hb
      have hclear : bit (inodeMap (s.disk ROOT_DEV_NR)) b = false := hb.2.2.1
      have hbit : (imageIn sb s).inodeBit n =
          (decide (n < 4096) && bit (inodeMap (s.disk ROOT_DEV_NR)) n) := rfl
      rw [hbit, hbn, hclear, Bool.and_false] at hset
      cases hset

end Facts

/-! ## One request -/

/-- The fields of an inode that O_TRUNC leaves alone. -/
theorem cut_fields (flags : BitVec 32) (p : Inode) :
    (cut flags p).fileType = p.fileType ∧ (cut flags p).sectStart = p.sectStart ∧
      (cut flags p).nrSects = p.nrSects ∧ (cut flags p).dev = p.dev ∧
      (cut flags p).nr = p.nr ∧
      (cut flags p).fileSize.toNat ≤ p.fileSize.toNat := by
  rw [cut]
  split
  · exact ⟨rfl, rfl, rfl, rfl, rfl, Nat.le_refl _⟩
  · exact ⟨rfl, rfl, rfl, rfl, rfl, Nat.zero_le _⟩

section Requests

variable {sb : SuperBlock} {live : Finset Nat} {s t : Fs} {n : Nat} {p : Pid}
  {fd len ret : Int} {pathname : List Byte} {flags : BitVec 32}

/-- The size of an inode changes: the maps have no part in that. -/
theorem maps_resized {m : Image} {q r : Inode} (h : Maps sb m live)
    (hstored : m.inode n = asStored n r) (htype : q.fileType = r.fileType)
    (hstart : q.sectStart = r.sectStart) (hsects : q.nrSects = r.nrSects)
    (hn : n ∈ live) (hsize : n = 1 → q.fileSize.toNat ≤ r.fileSize.toNat) :
    Maps sb (m.setInode n q) live := by
  refine maps_setInode h ?_ ?_ ?_ fun h1 => ?_
  · rw [hstored]
    exact htype
  · rw [hstored]
    exact hstart
  · rw [hstored]
    exact hsects
  · have hkind := h.kind n hn
    rw [Kind, if_pos h1, hstored] at hkind
    exact (hsize h1).trans hkind.2.size

/-- The directory is no larger. -/
theorem entries_resized {m : Image} {q r : Inode} (hstored : m.inode n = asStored n r)
    (hsize : n = 1 → q.fileSize.toNat ≤ r.fileSize.toNat) :
    entries (m.setInode n q) ≤ entries m := by
  rw [entries, entries]
  by_cases h1 : n = 1
  · subst h1
    rw [setInode_same, hstored]
    exact Nat.div_le_div_right (hsize rfl)
  · rw [setInode_other m (Ne.symm h1)]

/-- The inode of this number has been opened, and the rest is as it was. -/
def FileOpened (sb : SuperBlock) (s t : Fs) (n : Nat) (flags : BitVec 32) : Prop :=
  ∃ p, (imageIn sb s).inode n = asStored n p ∧
    imageIn sb t = (imageIn sb s).setInode n (cut flags p) ∧ OuterKept sb s t

/-- **A FILE IS OPENED.** -/
theorem kept_openOld (hfits : Fits sb) (h : Kept sb live s) (hn : n ∈ live)
    (hnr : numberOf s (pathname.takeWhile (· ≠ 0)) = n) (hret : ret ≠ -1)
    (hrun : doOpen p.val pathname flags s = .ok ret t) (hc : Counted t) :
    FileOpened sb s t n flags ∧ Kept sb live t := by
  obtain ⟨hroot, -, -⟩ := kept_root h
  obtain ⟨h1, h2⟩ := h.maps.range n hn
  obtain ⟨fd, d, i, w, -, -, -, hobt, hb, hkept⟩ := becomes_openOld hfits.made
    h.super hroot.dev hnr h1 (by omega) (fun j => cached_stored h) hret hrun
  obtain ⟨hdev, hwnr, hstored⟩ :=
    obtained_inode h.super h1 (by omega) (fun j => cached_stored h) hobt
  obtain ⟨q, hq⟩ : ∃ q, q = cut flags (w.inodeTable i) := ⟨_, rfl⟩
  have hw : truncated flags i w = s.updInode i fun _ => q := by
    rw [hq, obtained_eq hobt, KosBounds.truncated_updInode, updInode_self]
  obtain ⟨htype, hstart, hsects, hqdev, hqnr, hsize⟩ :=
    cut_fields flags (w.inodeTable i)
  rw [← hq] at htype hstart hsects hqdev hqnr hsize
  rw [hw, updInode_self] at hb
  refine ⟨⟨w.inodeTable i, hstored, hq ▸ hb.image, hkept⟩, kept_becomes hb h.super hc
    (maps_resized h.maps hstored htype hstart hsects hn fun _ => hsize)
    (loaded_connect ?_ _ _ _)⟩
  refine loaded_update h.loaded rfl rfl rfl (obtained_others h hobt)
    (fun j hj _ => hj) (fun j _ hj => setInode_other _ hj q)
    (entry_self hn (hqdev.trans hdev) (hqnr.trans hwnr) (setInode_same ..))
    fun hi => ?_
  rw [hqnr, hwnr, obtained_root h hobt hi]
  rfl

/-- The directory has no more entries behind it. -/
theorem opened_entries (h : FileOpened sb s t n flags) :
    (imageIn sb t).dir = (imageIn sb s).dir ∧
      entries (imageIn sb t) ≤ entries (imageIn sb s) := by
  obtain ⟨q, hstored, himage, -⟩ := h
  rw [himage]
  exact ⟨rfl, entries_resized hstored fun _ => (cut_fields flags q).2.2.2.2.2⟩

/-- Opening a file that exists. -/
theorem inv_openOld (hfits : Fits sb) (h : Inv sb live s) (hn : n ∈ live)
    (hnr : numberOf s (pathname.takeWhile (· ≠ 0)) = n) (hret : ret ≠ -1)
    (hrun : doOpen p.val pathname flags s = .ok ret t) (hc : Counted t) :
    FileOpened sb s t n flags ∧ Inv sb live t := by
  obtain ⟨hopened, ht⟩ := kept_openOld hfits h.kept hn hnr hret hrun hc
  obtain ⟨hdir, hsize⟩ := opened_entries hopened
  exact ⟨hopened, ht.super, hc, ht.maps, listed_mono h.files.listed hdir hsize,
    ht.loaded⟩

/-- The number of the inode that FD stands for. -/
def fileOf (s : Fs) (p : Pid) (fd : Int) : Option Nat :=
  ((slotOf s p.val fd).bind fun d => (s.fileDescTable d).inode).map
    fun i => (s.inodeTable i).nr.toNat

/-- The root directory grows in its size alone. -/
theorem grown_fields (free : Bool) (p : Inode) :
    (grown free p).fileType = p.fileType ∧
      (grown free p).sectStart = p.sectStart ∧
      (grown free p).nrSects = p.nrSects ∧ (grown free p).dev = p.dev ∧
      (grown free p).nr = p.nr := by
  rw [grown]
  split <;> exact ⟨rfl, rfl, rfl, rfl, rfl⟩

/-- It stays within its sectors. -/
theorem grown_size {free : Bool} {p : Inode} (h : p.fileSize.toNat / 16 ≤ 4096) :
    (grown free p).fileSize.toNat ≤ 2048 * 512 := by
  rw [grown]
  split
  · omega
  · dsimp only
    rw [BitVec.toNat_add, show (16 : BitVec 32).toNat = 16 from rfl]
    omega

/-- The image has an inode more, with this number and an entry of the directory;
    no other entry changes when the name has at most 11 characters. -/
def Created (sb : SuperBlock) (s t : Fs) (path : List Byte) (b : Nat) : Prop :=
  ∃ name β k free g i, getFileName path = some name ∧
    Room sb s (s.inodeTable s.rootInode).fileSize b β k free i ∧
    (∀ y < β, (imageIn sb s).sectBit y = true) ∧
    (name.length ≤ 11 → g = putEntry (imageIn sb s).dir (16 * k) b name) ∧
    imageIn sb t = (imageIn sb s).withEntry b β g
      (newInode ROOT_DEV_NR b (sectorNr sb β))
      (grown free (s.inodeTable s.rootInode)) ∧ OuterKept sb s t

/-- The image has the file of a path more, with this number. -/
def NewFile (sb : SuperBlock) (s t : Fs) (path : List Byte) (b : Nat) : Prop :=
  ∃ name β k free i, getFileName path = some name ∧
    Room sb s (s.inodeTable s.rootInode).fileSize b β k free i ∧
    (∀ y < β, (imageIn sb s).sectBit y = true) ∧
    imageIn sb t = (imageIn sb s).withFile b β k name
      (newInode ROOT_DEV_NR b (sectorNr sb β))
      (grown free (s.inodeTable s.rootInode)) ∧ OuterKept sb s t

/-- The image has the file of this number less. -/
def FileGone (sb : SuperBlock) (s t : Fs) (n : Nat) : Prop :=
  ∃ β k p, k < (s.inodeTable s.rootInode).fileSize.toNat / 16 ∧
    numAt (imageIn sb s).dir k = n ∧
    imageIn sb t = (imageIn sb s).withoutFile n β k p
      { s.inodeTable s.rootInode with
        fileSize := sizeWithout (imageIn sb s).dir
          (s.inodeTable s.rootInode).fileSize k } ∧ OuterKept sb s t

/-- **A FILE IS CREATED**, and its number is live. -/
theorem kept_openNew (hfits : Fits sb) (h : Kept sb live s)
    (hfew : entries (imageIn sb s) ≤ 4096)
    (hnr : numberOf s (pathname.takeWhile (· ≠ 0)) = INVALID_INODE)
    (hret : ret ≠ -1) (hrun : doOpen p.val pathname flags s = .ok ret t)
    (hc : Counted t) :
    ∃ b, fileOf t p ret = some b ∧
      Created sb s t (pathname.takeWhile (· ≠ 0)) b ∧
      Kept sb (insert b live) t := by
  obtain ⟨hroot, -, hentries⟩ := kept_root h
  rw [hentries] at hfew
  have hbytes : DIR_BYTES = 1048576 := rfl
  obtain ⟨fd, d, i, name, b, β, k, free, g, -, -, rfl, hname, hroom, hset, hg, hb,
    hkept⟩ := becomes_openNew hfits.made h.super hroot (by omega)
      (root_used h.counted) (image_bits h) hnr hret hrun
  obtain ⟨hb0, hnew, -⟩ := free_pos h.maps hroom.inodeClear hroom.sectsClear
  obtain ⟨q, hq⟩ : ∃ q, q = newInode ROOT_DEV_NR b (sectorNr sb β) := ⟨_, rfl⟩
  obtain ⟨htype, hstart, hsects, hdev, hgnr⟩ :=
    grown_fields free (s.inodeTable s.rootInode)
  have hlive : ∀ j ∈ live, j ∈ insert b live := fun j => Finset.mem_insert_of_mem
  have hqnr : q.nr = b := by
    rw [hq]
    rfl
  rw [← hq] at hb
  -- the new entry, then that of the directory
  have hfirst : Loaded ((imageIn sb s).setInode b q) (insert b live)
      (s.updInode i fun _ => q) := by
    refine loaded_update h.loaded rfl rfl rfl (fun j _ hused hjn => ?_)
      (fun j hj _ => hlive j hj) (fun j _ hj => setInode_other _ hj q)
      (entry_self (Finset.mem_insert_self b live) (by rw [hq]; rfl) hqnr
        (setInode_same ..)) fun hi => absurd hi hroom.notRoot
    obtain ⟨-, a, ha, hja, -⟩ := h.loaded.entry j hused
    have hab : a = b := by omega
    exact hnew (hab ▸ ha)
  have hsame : (s.updInode i fun _ => q).inodeTable s.rootInode =
      s.inodeTable s.rootInode := Function.update_of_ne hroom.notRoot.symm ..
  have htable : ((s.updInode i fun _ => q).updInode s.rootInode
      (grown free)).inodeTable = Function.update
        (s.updInode i fun _ => q).inodeTable s.rootInode
          (grown free (s.inodeTable s.rootInode)) := by
    rw [← hsame]
    rfl
  have hloaded : Loaded ((imageIn sb s).withEntry b β g q
      (grown free (s.inodeTable s.rootInode))) (insert b live)
      ((s.updInode i fun _ => q).updInode s.rootInode (grown free)) := by
    have hsecond : Loaded (((imageIn sb s).setInode b q).setInode 1
        (grown free (s.inodeTable s.rootInode))) (insert b live)
        ((s.updInode i fun _ => q).updInode s.rootInode (grown free)) :=
      loaded_update (n := 1) hfirst htable rfl rfl (fun j hj hused => ?_)
        (fun j hj _ => hj) (fun j _ hj => setInode_other _ hj _)
        (entry_self (hlive 1 h.maps.root) (hdev.trans hroot.dev)
          (hgnr.trans hroot.nr) (setInode_same ..)) fun _ => hgnr.trans hroot.nr
    · exact loaded_image hsecond rfl
    by_cases hji : j = i
    · have hb1 : b ≠ 1 := fun h1 => hnew (h1 ▸ h.maps.root)
      rw [hji, updInode_self, hqnr]
      omega
    · have hsame : (s.updInode i fun _ => q).inodeTable j = s.inodeTable j :=
        Function.update_of_ne hji ..
      rw [hsame] at hused ⊢
      exact others h (root_used h.counted) hroot.nr j hj hused
  have hstored := hroot.stored
  have hmaps : Maps sb ((imageIn sb s).withEntry b β g q
      (grown free (s.inodeTable s.rootInode))) (insert b live) :=
    maps_withEntry hfits h.maps hroom.number hroom.inodeClear hroom.sectsEnd
      hroom.sectsClear hq (htype.trans (congrArg Inode.fileType hstored).symm)
      (hstart.trans (congrArg Inode.sectStart hstored).symm)
      (hsects.trans (congrArg Inode.nrSects hstored).symm) (grown_size hfew)
  refine ⟨b, ?_, ⟨name, β, k, free, g, i, hname, hroom, hset, hg, hq ▸ hb.image,
    hkept⟩, kept_becomes hb h.super hc hmaps (loaded_connect hloaded _ _ _)⟩
  have hslot : slotOf t p.val (fd.val : Int) = some d := by
    have hfd : (fd.val : Int).toNat = fd.val := Int.toNat_natCast _
    rw [slotOf, dif_pos (by rw [hfd]; exact fd.isLt), if_pos (Int.natCast_nonneg _),
      hb.tables.slots]
    show Function.update s.fileDesc p.val _ p.val _ = _
    rw [Function.update_self]
    refine (congrArg _ (Fin.ext hfd)).trans (Function.update_self ..)
  have hdesc : (t.fileDescTable d).inode = some i := by
    rw [hb.tables.descs]
    show (Function.update s.fileDescTable d _ d).inode = _
    rw [Function.update_self]
  have hinode : (t.inodeTable i).nr = b := by
    rw [hb.tables.inodes]
    show (((s.updInode i fun _ => q).updInode s.rootInode
      (grown free)).inodeTable i).nr = _
    rw [htable, Function.update_of_ne hroom.notRoot, updInode_self, hqnr]
  rw [fileOf, hslot, Option.bind_some, hdesc, Option.map_some, hinode,
    Int.toNat_natCast]

/-- With a name of at most 11 characters the directory lists it. -/
theorem inv_openNew (hfits : Fits sb) (h : Inv sb live s)
    (hlen : ∀ name, getFileName (pathname.takeWhile (· ≠ 0)) = some name →
      name.length ≤ 11)
    (hnr : numberOf s (pathname.takeWhile (· ≠ 0)) = INVALID_INODE)
    (hret : ret ≠ -1) (hrun : doOpen p.val pathname flags s = .ok ret t)
    (hc : Counted t) :
    ∃ b, fileOf t p ret = some b ∧
      NewFile sb s t (pathname.takeWhile (· ≠ 0)) b ∧
      Inv sb (insert b live) t := by
  obtain ⟨b, hfile, ⟨name, β, k, free, g, i, hname, hroom, hset, hg, himage, hkept⟩,
    ht⟩ := kept_openNew hfits h.kept h.files.listed.few hnr hret hrun hc
  have hshort := hlen name hname
  rw [hg hshort, ← withFile_eq] at himage
  obtain ⟨hb0, hnew, -⟩ :=
    free_pos h.files.maps hroom.inodeClear hroom.sectsClear
  refine ⟨b, hfile, ⟨name, β, k, free, i, hname, hroom, hset, himage, hkept⟩,
    ht.super, hc, ht.maps, ?_, ht.loaded⟩
  rw [himage]
  exact listed_withFile h.files.maps.range h.files.listed ⟨hb0, hroom.number⟩ hnew
    hshort (root_facts h).1.stored hroom.slot hroom.before

/-- **A DESCRIPTOR IS CLOSED.** -/
theorem inv_close (h : Inv sb live s) (hrun : doClose p.val fd s = .ok ret t)
    (hc : Counted t) : Inv sb live t := by
  obtain ⟨k, d, i, -, hd, rfl⟩ := doClose_tables hrun
  have hused : 0 < (s.inodeTable i).cnt :=
    exact_used h.counted.exact (atRoot_nonneg s) hd
  obtain ⟨hdev, n, hn, hnr, hstored⟩ := h.files.loaded.entry i (by omega)
  have hless : Loaded (imageIn sb s) live (lessUsed i s) := by
    refine loaded_update h.files.loaded rfl rfl rfl
      (others h.kept (by omega) hnr) (fun j hj _ => hj) (fun _ _ _ => rfl)
      (entry_self hn hdev hnr hstored) fun hi => ?_
    rw [hi]
    exact h.files.loaded.root
  have hdrop : Loaded (imageIn sb s) live ((lessUsed i s).updDesc d dropDesc) := by
    refine loaded_updDesc hless fun hne => h.files.loaded.pos d ?_
    intro hnone
    rw [hd] at hnone
    cases hnone
  exact ⟨h.super, hc, h.files.maps, h.files.listed,
    hdrop.entry, hdrop.root, hdrop.pos⟩

/-- **A DESCRIPTOR IS MOVED**, and the disk stays as it is. -/
theorem kept_lseek {off whence : Int} (h : Kept sb live s)
    (hrun : doLseek p.val fd off whence s = .ok ret t) (hc : Counted t) :
    imageIn sb t = imageIn sb s ∧ Kept sb live t := by
  rcases doLseek_tables hrun with rfl | ⟨d, i, pos, -, h0, hle, rfl⟩
  · exact ⟨rfl, h⟩
  · refine ⟨rfl, h.super, hc, h.maps, loaded_updDesc h.loaded fun _ => ⟨h0, ?_⟩⟩
    have hint := BitVec.toInt_lt (x := (s.inodeTable i).fileSize)
    dsimp only
    omega

/-- `lseek` moves the position alone. -/
theorem inv_lseek {off whence : Int} (h : Inv sb live s)
    (hrun : doLseek p.val fd off whence s = .ok ret t) (hc : Counted t) :
    Inv sb live t := by
  obtain ⟨himage, ht⟩ := kept_lseek h.kept hrun hc
  exact ⟨ht.super, hc, ht.maps, himage ▸ h.files.listed, ht.loaded⟩

/-- **A FILE IS READ OR WRITTEN**: nothing but its inode changes in the image. -/
theorem kept_regular {io : Io} {r : Int × (Nat → Byte)} {buf : Nat → Byte}
    {d : Fin NR_FILE_DESC} {i : Fin NR_INODE} (hfits : Fits sb) (h : Kept sb live s)
    (hi : (s.fileDescTable d).inode = some i)
    (hregular : (s.inodeTable i).fileType = TYPE_REGULAR)
    (hreg : doReadWriteRegular io i d len buf s = .ok r t) (hc : Counted t) :
    ∃ n ∈ live, n ≠ 1 ∧
      imageIn sb t = (imageIn sb s).setInode n (t.inodeTable i) ∧ Kept sb live t := by
  have hused : 0 < (s.inodeTable i).cnt :=
    exact_used h.counted.exact (atRoot_nonneg s) hi
  obtain ⟨hdev, n, hn, hnr, hstored⟩ := h.loaded.entry i (by omega)
  obtain ⟨h1, h2⟩ := h.maps.range n hn
  have htype : ((imageIn sb s).inode n).fileType = TYPE_REGULAR := by
    rw [hstored]
    exact hregular
  obtain ⟨hn1, -⟩ := regular_inData (h.maps.kind n hn) htype
  obtain ⟨hstart, hsmall⟩ := behind_root hfits h.maps hn htype
  rw [hstored] at hstart hsmall
  have hpos := h.loaded.pos d (by
    rw [hi]
    exact Option.some_ne_none i)
  obtain ⟨k, hend, hb⟩ := becomes_regular hfits.made h.super rfl hdev hnr h1
    (by omega) hstored hpos hstart hsmall hreg
  obtain ⟨pos, hp⟩ : ∃ pos, (s.fileDescTable d).pos = pos := ⟨_, rfl⟩
  rw [hp] at hend hpos
  have hmoved := extended_advanced (i := i) hp k
  obtain ⟨q, hq⟩ : ∃ q, q = reached (pos + k) (s.inodeTable i) := ⟨_, rfl⟩
  have hentry : (extended i d (advanced d k s)).inodeTable i = q := by
    rw [hmoved.inodes, hq]
    exact updInode_self s _
  have htable : t.inodeTable i = q := by
    rw [hb.tables.inodes]
    exact hentry
  rw [hentry] at hb
  rw [← hq] at hmoved
  have hsame : q.fileType = (s.inodeTable i).fileType ∧
      q.sectStart = (s.inodeTable i).sectStart ∧
      q.nrSects = (s.inodeTable i).nrSects ∧ q.dev = (s.inodeTable i).dev ∧
      q.nr = (s.inodeTable i).nr := by
    rw [hq, reached]
    split <;> exact ⟨rfl, rfl, rfl, rfl, rfl⟩
  obtain ⟨hqtype, hqstart, hqsects, hqdev, hqnr⟩ := hsame
  refine ⟨n, hn, hn1, htable ▸ hb.image,
    kept_becomes hb ((superOf_congr hmoved.supers).trans h.super) hc
      (maps_resized h.maps hstored hqtype hqstart hqsects hn fun h1 => absurd h1 hn1)
      (loaded_congr hmoved ?_)⟩
  refine loaded_updDesc (loaded_update h.loaded rfl rfl rfl
    (others h (by omega) hnr) (fun j hj _ => hj)
    (fun j _ hj => setInode_other _ hj q)
    (entry_self hn (hqdev.trans hdev) (hqnr.trans hnr) (setInode_same ..))
    fun hi => ?_) fun _ => ⟨?_, ?_⟩
  · rw [hqnr, hi]
    exact h.loaded.root
  · dsimp only
    omega
  · exact hend

/-- Transfers on regular files. -/
theorem inv_readWrite {io : Io} {reply r : Int × (Nat → Byte)}
    {buf : Nat → Byte} (hfits : Fits sb) (h : Inv sb live s)
    (hregular : ∀ d i, Behind s p.val fd d i →
      (s.inodeTable i).fileType = TYPE_REGULAR)
    (hrun : doReadWrite io p.val fd len reply buf s = .ok r t)
    (hc : Counted t) : Inv sb live t := by
  rcases doReadWrite_tables hrun with rfl | ⟨d, i, hbehind, -, hreg⟩
  · exact h
  obtain ⟨n, -, hn1, himage, ht⟩ := kept_regular hfits h.kept hbehind.2
    (hregular d i hbehind) hreg hc
  refine ⟨ht.super, hc, ht.maps, ?_, ht.loaded⟩
  rw [himage]
  refine listed_mono h.files.listed rfl (Nat.le_of_eq ?_)
  rw [entries, entries, setInode_other _ (Ne.symm hn1)]

/-- **A FILE IS REMOVED**, and its number is not live any more. -/
theorem inv_unlink (hfits : Fits sb) (h : Inv sb live s) (hret : ret ≠ -1)
    (hrun : doUnlink pathname s = .ok ret t) (hc : Counted t) :
    ∃ n : Nat, numberOf s (pathname.takeWhile (· ≠ 0)) = n ∧ 1 < n ∧
      FileGone sb s t n ∧ Inv sb (live.erase n) t := by
  obtain ⟨hroot, hdir, hfew⟩ := root_facts h
  have hsmall := hfits.small
  obtain ⟨n, k, i, w, hnumber, hf, hn1, hi, hobt, hcnt, hk, hnum, -, hb, houter⟩ :=
    becomes_unlink hfits.made (by omega) h.super hroot (root_used h.counted) hdir
      (fun n j => cached_stored h.kept) (g := fun n =>
        startBit sb ((imageIn sb s).inode n)) (fun n hn0 hbit htype =>
        hasFile_of_live hfits h.files.maps (live_of_bit h.files.maps hn0 hbit)
          htype) hret hrun
  have hrange := hf.range
  refine ⟨n, hnumber, by omega, ⟨_, k, _, hk, hnum, hb.image, houter⟩, ?_⟩
  have hstored := hroot.stored
  obtain ⟨size, hsize⟩ : ∃ size, size = sizeWithout (imageIn sb s).dir
    (s.inodeTable s.rootInode).fileSize k := ⟨_, rfl⟩
  obtain ⟨hle, -⟩ := sizeWithout_entries (f := (imageIn sb s).dir) (k := k) hfew
  obtain ⟨r, hr⟩ : ∃ r : Inode, r = { s.inodeTable s.rootInode with
    fileSize := size } := ⟨_, rfl⟩
  obtain ⟨m, hm⟩ : ∃ m, m = (imageIn sb s).withoutFile n
    (startBit sb ((imageIn sb s).inode n)) k (emptied (w.inodeTable i)) r := ⟨_, rfl⟩
  have hlisted : Listed m (live.erase n) := by
    rw [hm, hr, hsize]
    exact listed_withoutFile h.files.listed hstored hk hnum
  rw [← hsize] at hb hle
  have hmaps : Maps sb m (live.erase n) := by
    rw [hm, hr]
    exact maps_withoutFile h.files.maps hf rfl hn1
      (congrArg Inode.fileType hstored).symm
      (congrArg Inode.sectStart hstored).symm
      (congrArg Inode.nrSects hstored).symm (by dsimp only; omega)
  -- the entry of the file is free now
  have hone : (w.inodeTable i).cnt = 1 := by
    cases hobt with
    | cached hcached =>
        have hused := (cached_some hcached).1
        have hnonneg := exact_uses_nonneg h.counted.exact (atRoot_nonneg s) i
        rw [updInode_self] at hcnt
        rw [refs] at hused hnonneg
        dsimp only at hused hnonneg hcnt
        omega
    | loaded _ _ _ _ =>
        rw [updInode_self]
        rfl
  have hlive : ∀ j ∈ live, j ≠ n → j ∈ live.erase n :=
    fun j hj hjn => Finset.mem_erase.mpr ⟨hjn, hj⟩
  have hw := obtained_eq hobt
  obtain ⟨q, hq⟩ : ∃ q : Inode, q = { emptied (w.inodeTable i) with
    cnt := (w.inodeTable i).cnt - 1 } := ⟨_, rfl⟩
  have hfree : q.cnt = 0 := by
    rw [hq, hone]
    rfl
  obtain ⟨x, hx⟩ : ∃ x, x = lessUsed i (w.updInode i emptied) := ⟨_, rfl⟩
  have hx' : x = s.updInode i fun _ => q := by
    rw [hx, hq, lessUsed, hw]
    simp only [Fs.updInode, Function.update_idem, Function.update_self]
    rfl
  rw [← hx, hx'] at hb
  have hfirst : Loaded ((imageIn sb s).setInode n (emptied (w.inodeTable i)))
      (live.erase n) (s.updInode i fun _ => q) :=
    loaded_update h.files.loaded rfl rfl rfl (obtained_others h.kept hobt) hlive
      (fun j _ hj => setInode_other _ hj _) (fun hne => absurd hfree hne)
      fun hroot => absurd hroot hi
  have hkept : (s.updInode i fun _ => q).inodeTable s.rootInode =
      s.inodeTable s.rootInode := Function.update_of_ne hi.symm ..
  have htable : (sized s.rootInode size (s.updInode i fun _ => q)).inodeTable =
      Function.update (s.updInode i fun _ => q).inodeTable s.rootInode
        { s.inodeTable s.rootInode with fileSize := size } := by
    rw [← hkept]
    rfl
  have hloaded : Loaded (((imageIn sb s).setInode n
      (emptied (w.inodeTable i))).setInode 1 { s.inodeTable s.rootInode with
        fileSize := size }) (live.erase n) (sized s.rootInode size
          (s.updInode i fun _ => q)) :=
    loaded_update (n := 1) hfirst htable rfl rfl (fun j hj hused => ?_)
      (fun j hj _ => hj) (fun j _ hj => setInode_other _ hj _)
      (entry_self (hlive 1 h.files.maps.root hn1.symm) hroot.dev hroot.nr
        (setInode_same ..)) fun _ => hroot.nr
  · rw [hm, hr] at hmaps hlisted
    exact ⟨(superOf_congr hb.tables.supers).trans h.super, hc,
      consistent_becomes hb ⟨hmaps, hlisted, loaded_image hloaded rfl⟩⟩
  · by_cases hji : j = i
    · rw [hji, updInode_self] at hused
      exact absurd hfree hused
    · have hsame : (s.updInode i fun _ => q).inodeTable j = s.inodeTable j :=
        Function.update_of_ne hji ..
      rw [hsame] at hused ⊢
      exact others h.kept (root_used h.counted) hroot.nr j hj hused

end Requests

/-! ## Runs -/

/-- A file system and its live inodes. -/
structure State where
  fs : Fs
  live : Finset Nat

/-- The requests of the runs: files are created with names of at most 11
    characters, live ones are opened, and regular ones read and written. -/
def allowed (s : State) (p : Pid) : Request → Prop
  | .open pathname _ =>
      (numberOf s.fs (pathname.takeWhile (· ≠ 0)) = INVALID_INODE ∧
        ∀ name, getFileName (pathname.takeWhile (· ≠ 0)) = some name →
          name.length ≤ 11) ∨
      ∃ n ∈ s.live, numberOf s.fs (pathname.takeWhile (· ≠ 0)) = (n : Int)
  | .readWrite _ fd _ _ _ => ∀ d i, Behind s.fs p.val fd d i →
      (s.fs.inodeTable i).fileType = TYPE_REGULAR
  | .stat _ => False
  | _ => True

/-- The number of a created file is live, and that of a removed one is not. -/
def liveAfter (s : State) (p : Pid) (ret : Int) (t : Fs) : Request → Finset Nat
  | .open pathname _ =>
      if numberOf s.fs (pathname.takeWhile (· ≠ 0)) = INVALID_INODE then
        (fileOf t p ret).elim s.live fun n => insert n s.live
      else s.live
  | .unlink pathname =>
      s.live.erase (numberOf s.fs (pathname.takeWhile (· ≠ 0))).toNat
  | _ => s.live

/-- A process makes a request, and it is done. -/
def step (s : State) (e : Pid × Request) (t : State) : Prop :=
  allowed s e.1 e.2 ∧ ∃ ret, succeeded e.2 ret ∧
    handle e.1.val e.2 s.fs = .ok ret t.fs ∧
    t.live = liveAfter s e.1 ret t.fs e.2

/-- FS has made a file system on a partition of `sectCnt` sectors. -/
def Boot (sectCnt : BitVec 32) (s : State) : Prop :=
  s.live = firstInodes ∧ ∃ s₀, word (s₀.disk ROOT_DEV_NR) 512 ≠ MAGIC_V1 ∧
    (∀ pid k, s₀.fileDesc pid k = none) ∧ initFs sectCnt s₀ = .ok () s.fs

/-- The inode of a number, on the root device. -/
def onDisk (sb : SuperBlock) (s : Fs) (n : Nat) : Inode :=
  diskInode (s.disk ROOT_DEV_NR) sb ROOT_DEV_NR n

/-- **THE MAPS AGREE** with the live inodes: the set bits of the inode map are
    bit 0 and the numbers, no sector is in the extents of two of them, and the
    set bits of the sector map are bit 0 and those of their sectors. -/
structure Agrees (sb : SuperBlock) (live : Finset Nat) (s : Fs) : Prop where
  inodeMap : ∀ y : Nat,
    y < 4096 ∧ bit (inodeMap (s.disk ROOT_DEV_NR)) y = true ↔ y = 0 ∨ y ∈ live
  apart : ∀ i ∈ live, ∀ j ∈ live, i ≠ j → ∀ sector,
    (extentOf (onDisk sb s i)).Has sector → ¬ (extentOf (onDisk sb s j)).Has sector
  sectorMap : ∀ y : Int, (∃ b : Nat, y = b ∧ b < mapSize sb ∧
      bit (mapOf sb (s.disk ROOT_DEV_NR)) b = true) ↔
    y = 0 ∨ ∃ n ∈ live, ∃ sector : Nat, (extentOf (onDisk sb s n)).Has sector ∧
      y = sector - sb.nr1stDataSect.toNat + 1

section Runs

variable {sb : SuperBlock} {live : Finset Nat} {s t : State} {n sector : Nat}
  {sectCnt : BitVec 32}

/-- A sector of a live inode has a bit. -/
theorem kind_bit (hm : Made sb) {p : Inode} (h : Kind sb n p)
    (hs : (extentOf p).Has sector) :
    sb.nr1stDataSect.toNat ≤ sector ∧
      OwnsBit sb p (sector - sb.nr1stDataSect.toNat + 1) := by
  have hfirst : sb.nr1stDataSect.toNat ≤ p.sectStart.toNat := by
    rw [Kind] at h
    by_cases h1 : n = 1
    · rw [if_pos h1] at h
      exact (rootDir_inData hm h.2).start
    · rw [if_neg h1] at h
      rcases h with ⟨-, hdata⟩ | ⟨-, hnone⟩
      · exact hdata.start
      · obtain ⟨hle, hlt⟩ := hs
        rw [extentOf, hnone] at hle hlt
        dsimp only at hle hlt
        rw [show (0 : BitVec 32).toNat = 0 from rfl] at hlt
        omega
  have hle : p.sectStart.toNat ≤ sector := hs.1
  refine ⟨hfirst.trans hle, by omega, ?_⟩
  rwa [show sb.nr1stDataSect.toNat + (sector - sb.nr1stDataSect.toNat + 1) - 1 =
    sector by omega]

/-- The maps of a consistent image agree. -/
theorem agrees_of_inv (hm : Made sb) {s : Fs} (h : Inv sb live s) :
    Agrees sb live s := by
  obtain ⟨hmaps, -, -⟩ := h.files
  have hdisk : ∀ n ∈ live, onDisk sb s n = (imageIn sb s).inode n := by
    intro n hn
    have hrange := hmaps.range n hn
    exact (if_pos ⟨hrange.1, by omega⟩ : (imageIn sb s).inode n = _).symm
  have hibit : ∀ y, (imageIn sb s).inodeBit y = true ↔
      y < 4096 ∧ bit (inodeMap (s.disk ROOT_DEV_NR)) y = true := by
    intro y
    show (decide (y < 4096) && _) = true ↔ _
    rw [Bool.and_eq_true, decide_eq_true_eq]
  have hsbit : ∀ y, (imageIn sb s).sectBit y = true ↔
      y < mapSize sb ∧ bit (mapOf sb (s.disk ROOT_DEV_NR)) y = true := by
    intro y
    show (decide (y < mapSize sb) && _) = true ↔ _
    rw [Bool.and_eq_true, decide_eq_true_eq]
  refine ⟨fun y => ?_, fun i hi j hj hij sector h₁ h₂ => ?_, fun y => ?_⟩
  · rw [← hibit, hmaps.inodes.used_iff]
    refine or_congr_right ⟨?_, fun hy => ⟨y, hy, rfl⟩⟩
    rintro ⟨i, hi, rfl⟩
    exact hi
  · rw [hdisk i hi] at h₁
    rw [hdisk j hj] at h₂
    exact hij (hmaps.sects.one_owner i hi j hj _
      (kind_bit hm (hmaps.kind i hi) h₁).2 (kind_bit hm (hmaps.kind j hj) h₂).2)
  · constructor
    · rintro ⟨b, rfl, hset⟩
      rcases (hmaps.sects.used_iff b).mp ((hsbit b).mpr hset) with h0 | ⟨n, hn, h1, hhas⟩
      · exact Or.inl (congrArg Nat.cast h0)
      · rw [← hdisk n hn] at hhas
        exact Or.inr ⟨n, hn, _, hhas, by omega⟩
    · rintro (rfl | ⟨n, hn, sector, hhas, rfl⟩)
      · exact ⟨0, rfl, (hsbit 0).mp ((hmaps.sects.used_iff 0).mpr (Or.inl rfl))⟩
      · rw [hdisk n hn] at hhas
        obtain ⟨hle, howns⟩ := kind_bit hm (hmaps.kind n hn) hhas
        exact ⟨_, by omega, (hsbit _).mp
          ((hmaps.sects.used_iff _).mpr (Or.inr ⟨n, hn, howns⟩))⟩

/-- **A NEW FILE SYSTEM** meets the invariant. -/
theorem inv_boot (hlog : 2048 ≤ sectCnt.toNat)
    (hfirst : sectCnt.toNat < 124768256) (h : Boot sectCnt s) :
    Fits (superBlock sectCnt ROOT_DEV_NR) ∧
      Inv (superBlock sectCnt ROOT_DEV_NR) s.live s.fs := by
  obtain ⟨hlive, s₀, hold, hnone, hrun⟩ := h
  obtain ⟨haccept, hsuper, himage, htable, hdescs, -⟩ :=
    boot_image hlog hfirst hold hrun
  have hlarge := KosMkfsImage.accepts_iff.mp haccept
  obtain ⟨-, hsmap, hdata⟩ := KosMkfsImage.superBlock_nat sectCnt
  have hcounted : Counted s.fs := (KosReferenceCounts.inv_boot
    (s := ⟨s.fs, fun _ => true⟩) ⟨sectCnt, s₀, hnone, hrun⟩).counted
  have hm := superBlock_made sectCnt ROOT_DEV_NR
  obtain ⟨sb, hsb⟩ : ∃ sb, superBlock sectCnt ROOT_DEV_NR = sb := ⟨_, rfl⟩
  rw [hsb] at hsuper himage htable hsmap hdata hm ⊢
  have hmap : mapSize sb = 4096 * (sectCnt.toNat / 4096 + 1) := by
    rw [mapSize, hsmap]
  refine ⟨⟨hm, by omega⟩, hsuper, hcounted, ?_⟩
  rw [hlive]
  refine ⟨maps_new himage (by omega) (by omega), listed_new himage, fun i => ?_, ?_,
    fun d hd => ?_⟩
  · rw [htable, Function.update_apply]
    by_cases hi : i = s.fs.rootInode
    · rw [if_pos hi]
      exact entry_self (by decide) rfl rfl (himage.inode 0 (show 0 < 5 by omega))
    · rw [if_neg hi]
      exact fun hcnt => absurd rfl hcnt
  · rw [htable, Function.update_self]
    rfl
  · rw [hdescs] at hd
    exact absurd rfl hd

/-- One request keeps the invariant. -/
theorem inv_step (hfits : Fits sb) (h : Inv sb s.live s.fs) {e : Pid × Request}
    (hs : step s e t) : Inv sb t.live t.fs := by
  obtain ⟨p, req⟩ := e
  obtain ⟨hallowed, ret, hok, hrun, hlive⟩ := hs
  have hcounts := (request_iff (s := ⟨s.fs, fun _ => true⟩) h.counted hok hrun).1
  rw [hlive]
  cases req with
  | «open» pathname flags =>
      have hc := hcounts.mpr (number_unused h.kept _ flags)
      rw [liveAfter]
      rcases hallowed with ⟨hnew, hlen⟩ | ⟨n, hn, hnr⟩
      · obtain ⟨b, hb, -, ht⟩ := inv_openNew hfits h hlen hnew hok hrun hc
        rw [if_pos hnew, hb]
        exact ht
      · have hrange := h.files.maps.range n hn
        rw [if_neg (by rw [hnr, show INVALID_INODE = 0 from rfl]; omega)]
        exact (inv_openOld hfits h hn hnr hok hrun hc).2
  | close fd => exact inv_close h hrun (hcounts.mpr trivial)
  | lseek fd off whence => exact inv_lseek h hrun (hcounts.mpr trivial)
  | readWrite io fd len reply buf =>
      obtain ⟨r, u, hrw, hret⟩ := run_bind.mp hrun
      cases hret
      exact inv_readWrite hfits h hallowed hrw (hcounts.mpr trivial)
  | unlink pathname =>
      obtain ⟨n, hn, -, -, ht⟩ := inv_unlink hfits h hok hrun (hcounts.mpr trivial)
      rw [liveAfter, hn, Int.toNat_natCast]
      exact ht
  | stat pathname => exact hallowed.elim

/-- **THE MAPS AGREE** in every state of every run, when the partition has the
    sectors of the log and the root directory ends before `cmd.tar` begins. -/
theorem maps_agree (hcond : 2048 ≤ sectCnt.toNat ∧ sectCnt.toNat < 124768256)
    (h : Reach (Boot sectCnt) step free s) :
    Agrees (superBlock sectCnt ROOT_DEV_NR) s.live s.fs := by
  have hs : Fits (superBlock sectCnt ROOT_DEV_NR) ∧
      Inv (superBlock sectCnt ROOT_DEV_NR) s.live s.fs :=
    reach_invariant (fun s => Fits (superBlock sectCnt ROOT_DEV_NR) ∧
        Inv (superBlock sectCnt ROOT_DEV_NR) s.live s.fs)
      (fun _ => inv_boot hcond.1 hcond.2)
      (fun _ _ _ hs _ hstep => ⟨hs.1, inv_step hs.1 hs.2 hstep⟩) h
  exact agrees_of_inv hs.1.made hs.2

end Runs

/-- The run that creates one file. -/
theorem maps_agree_created : ∃ s : State, s.live = insert 6 firstInodes ∧
    Agrees (superBlock 40960 ROOT_DEV_NR) s.live s.fs := by
  have hrun : ((outcome (initFs 40960 blankFs)).bind fun p =>
      (outcome (handle 5 (.open [0x61] (O_RDWR ||| O_CREAT)) p.2)).map fun q =>
        (decide (numberOf p.2 [0x61] = INVALID_INODE), fileOf q.2 5 q.1,
          decide (q.1 ≠ -1))) = some (true, some 6, true) := by
    simp only [initFs, mkfs, createSectorMap, fillBytes_eq, handle, doOpen, findInode,
      createFile, ← allocSectMapBitFast_eq]
    decide +kernel
  obtain ⟨⟨_, s⟩, hs, hrun⟩ := Option.bind_eq_some_iff.mp hrun
  obtain ⟨⟨fd, t⟩, ht, hchecks⟩ := Option.map_eq_some_iff.mp hrun
  simp only [Prod.mk.injEq, decide_eq_true_eq] at hchecks
  obtain ⟨hnew, hfile, hfd⟩ := hchecks
  have hboot : Boot 40960 ⟨s, firstInodes⟩ :=
    ⟨rfl, blankFs, by decide, fun _ _ => rfl, outcome_eq_some.mp hs⟩
  have hname : ([0x61] : List Byte).takeWhile (· ≠ 0) = [0x61] := by decide
  have hopen : step ⟨s, firstInodes⟩ (5, .open [0x61] (O_RDWR ||| O_CREAT))
      ⟨t, insert 6 firstInodes⟩ := by
    refine ⟨Or.inl ⟨by rw [hname]; exact hnew, ?_⟩, fd, hfd,
      outcome_eq_some.mp ht, ?_⟩
    · intro name hget
      rw [hname] at hget
      cases hget
      decide
    · rw [liveAfter]
      dsimp only
      rw [hname, if_pos hnew, hfile]
      rfl
  exact ⟨_, rfl, maps_agree (by decide) (.next (.start hboot) trivial hopen)⟩

/-- On a partition of 1000 sectors the bits of `cmd.tar` are behind the map. -/
theorem small_partition : ¬ ∀ sectCnt : BitVec 32,
    (extentOf (rootInodeOf (superBlock sectCnt ROOT_DEV_NR))).Apart
      (extentOf tarInode) → ∀ s, Reach (Boot sectCnt) step free s →
        Agrees (superBlock sectCnt ROOT_DEV_NR) s.live s.fs := by
  intro hall
  have hrun : (outcome (initFs 1000 blankFs)).map (fun p =>
      extentOf (onDisk (superBlock 1000 ROOT_DEV_NR) p.2 5)) =
        some ⟨32768, 2048⟩ := by decide +kernel
  obtain ⟨⟨_, s⟩, hs, htar⟩ := Option.map_eq_some_iff.mp hrun
  have hboot : Boot 1000 ⟨s, firstInodes⟩ :=
    ⟨rfl, blankFs, by decide, fun _ _ => rfl, outcome_eq_some.mp hs⟩
  have hagrees := hall 1000 (by
    rw [Extent.Apart]
    decide) _ (.start hboot)
  obtain ⟨b, hb, hlt, -⟩ := (hagrees.sectorMap 32509).mpr (Or.inr ⟨5,
    show 5 ∈ firstInodes by decide, 32768,
    by rw [htar]; exact ⟨Nat.le_refl _, by decide⟩, by decide⟩)
  have hsize : mapSize (superBlock 1000 ROOT_DEV_NR) = 4096 := by decide
  omega

end KosMapRuns
